/-
`check_invariant` of both files: a walk over the headers from `heap_lo` to `heap_hi`
that collects the free blocks, and a walk over the lists that looks each node up
among them.  The checker is modelled for every memory and all values of the
globals, so its walk may also run past the end of the address space.
-/
import AllocSitter.HeapShape

namespace AllocSitter

open ByteMemory LinkedChain Tiling

variable {ι : Type}

/-- The assertions of `check_invariant`. -/
inductive Assertion where
  | aligned | minimum | inHeap | footer | room
  | liveBytes
  | clear | range | cutOff | ownBin | found
  | sameCount | freelistLen
deriving Repr, DecidableEq

/-- Why a check has not returned: a failed assertion, a read of memory that may not
be read, or a loop that is still going when the fuel is used up. -/
inductive Stop where
  | failed (assertion : Assertion)
  | badRead (addr : Nat)
  | running
deriving Repr, DecidableEq

abbrev Check := Except Stop

def require (assertion : Assertion) (p : Prop) [Decidable p] : Check Unit :=
  if p then .ok () else .error (.failed assertion)

/-- How a word of a given width is read. -/
abbrev Reader := Nat → Nat → Check Nat

/-- All memory may be read. -/
def readAll (m : Memory) : Reader := fun addr width => .ok (load m addr width)

/-- Only bytes of the blocks at `headers` may be read. -/
def readWithin (m : Memory) (headers : List Nat) : Reader := fun addr width =>
  if ∃ h ∈ headers, h ≤ addr ∧ addr + width ≤ h + blockSize m h then
    .ok (load m addr width)
  else .error (.badRead addr)

/-- `MAX_NODES`. -/
def maxNodes : Nat := 500000

/-- The assertions on one block of the walk; its header word. -/
def checkBlock (read : Reader) (heapHi p : Nat) : Check Nat := do
  let tag ← read p 4
  let chunk := tagSize tag
  require .aligned (chunk % 16 = 0)
  require .minimum (16 ≤ chunk)
  require .inHeap (ptrAdd p chunk ≤ heapHi)
  let footer ← read (ptrSub (ptrAdd p chunk) 4) 4
  require .footer (tagSize footer = chunk)
  return tag

/-- The walk over the blocks: `linear_free_list`, whose length is `linear_count`,
and `used_bytes`. -/
def collect (read : Reader) (heapHi : Nat) :
    Nat → Nat → List Nat → Nat → Check (List Nat × Nat)
  | 0, _, _, _ => .error .running
  | fuel + 1, p, free, used =>
      if p < heapHi then do
        let tag ← checkBlock read heapHi p
        if tag % 2 = 0 then
          require .room (free.length < maxNodes)
          collect read heapHi fuel (ptrAdd p (tagSize tag)) (free ++ [p]) used
        else
          collect read heapHi fuel (ptrAdd p (tagSize tag)) free (ptrAdd used (tagSize tag))
      else return (free, used)

/-- The assertions on one node of a list; the next node.  `ownBin` is the assertion
that only the file with bins makes. -/
def checkNode (read : Reader) (s : Globals ι) (free : List Nat) (ownBin : Nat → Check Unit)
    (p count : Nat) : Check Nat := do
  let tag ← read p 4
  require .clear (tag % 2 = 0)
  require .range (s.heapLo ≤ p ∧ p ≤ s.heapHi)
  require .cutOff (count < maxNodes)
  ownBin p
  require .found (p ∈ free)
  read (ptrAdd p 4) 8

/-- The walk over one list; `freelist_count` after it. -/
def crossCheck (read : Reader) (s : Globals ι) (free : List Nat) (ownBin : Nat → Check Unit) :
    Nat → Nat → Nat → Check Nat
  | 0, _, _ => .error .running
  | fuel + 1, p, count =>
      if p = 0 then return count
      else do
        let next ← checkNode read s free ownBin p count
        crossCheck read s free ownBin fuel next (count + 1)

/-- `check_invariant` over the lists `bins`; `liveBytes` is the assertion on
`used_bytes`, and `fuel` bounds the iterations of each loop. -/
def checkWith (bins : List ι) (ownBin : Reader → ι → Nat → Check Unit)
    (liveBytes : Nat → Check Unit) (read : Reader) (fuel : Nat) (s : Globals ι) :
    Check Unit := do
  let (free, used) ← collect read s.heapHi fuel s.heapLo [] 0
  liveBytes used
  let count ← bins.foldlM (fun count bin =>
    crossCheck read s free (ownBin read bin) fuel (s.freeHead bin) count) 0
  require .sameCount (free.length = count)
  require .freelistLen (count = s.stat.freelistLen)

namespace FirstFit

/-- `check_invariant` of `allocator.c`: one list, and no account of live bytes. -/
def checkInvariant (read : Reader) (fuel : Nat) (s : Globals Unit) : Check Unit :=
  checkWith [()] (fun _ _ _ => .ok ()) (fun _ => .ok ()) read fuel s

end FirstFit

namespace Segregated

/-- `check_invariant` of `segregated_allocator.c`. -/
def checkInvariant (read : Reader) (fuel : Nat) (s : State) : Check Unit :=
  checkWith (List.finRange 11)
    (fun read bin p => do
      let tag ← read p 4
      require .ownBin (sizeToBin (tagSize tag) = bin))
    (fun used => require .liveBytes (used = s.stat.liveRealBytes)) read fuel s

end Segregated

section Monad

variable {α β : Type} {x : Check α} {f : α → Check β}

theorem bind_eq_ok {result : β} : x >>= f = .ok result ↔ ∃ a, x = .ok a ∧ f a = .ok result := by
  cases x with
  | error stop => simp [bind, Except.bind]
  | ok a => simp [bind, Except.bind]

theorem require_eq_ok {assertion : Assertion} {p : Prop} [Decidable p] {u : Unit} :
    require assertion p = .ok u ↔ p := by
  unfold require
  split <;> simp [*]

/-- The check has ended: it has returned or failed an assertion. -/
def Ends (x : Check α) : Prop :=
  (∃ a, x = .ok a) ∨ ∃ assertion, x = .error (.failed assertion)

theorem Ends.bind (hx : Ends x) (hf : ∀ a, x = .ok a → Ends (f a)) : Ends (x >>= f) := by
  rcases hx with ⟨a, rfl⟩ | ⟨assertion, rfl⟩
  · exact hf a rfl
  · exact Or.inr ⟨assertion, rfl⟩

theorem ends_ok (a : α) : Ends (.ok a : Check α) := Or.inl ⟨a, rfl⟩

theorem ends_require (assertion : Assertion) (p : Prop) [Decidable p] :
    Ends (require assertion p) := by
  unfold require
  split
  · exact ends_ok ()
  · exact Or.inr ⟨assertion, rfl⟩

theorem ends_readAll (m : Memory) (addr width : Nat) : Ends (readAll m addr width) :=
  ends_ok _

end Monad

section Walks

variable {m : Memory} {heapHi p : Nat}

/-- A block as the checker wants it. -/
def BlockOk (m : Memory) (p : Nat) : Prop :=
  blockSize m p % 16 = 0 ∧ 16 ≤ blockSize m p ∧
    tagSize (load m (p + blockSize m p - 4) 4) = blockSize m p

theorem checkBlock_eq_ok {tag : Nat} :
    checkBlock (readAll m) heapHi p = .ok tag ↔
      tag = load m p 4 ∧ blockSize m p % 16 = 0 ∧ 16 ≤ blockSize m p ∧
        ptrAdd p (blockSize m p) ≤ heapHi ∧
        tagSize (load m (ptrSub (ptrAdd p (blockSize m p)) 4) 4) = blockSize m p := by
  simp only [checkBlock, readAll, bind_eq_ok, require_eq_ok, Except.ok.injEq, exists_eq_left',
    exists_and_left, exists_const, blockSize, pure, Except.pure]
  constructor
  · rintro ⟨haligned, hmin, hheap, hfooter, rfl⟩
    exact ⟨rfl, haligned, hmin, hheap, hfooter⟩
  · rintro ⟨rfl, haligned, hmin, hheap, hfooter⟩
    exact ⟨haligned, hmin, hheap, hfooter, rfl⟩

/-- The blocks at `headers` whose flag is clear. -/
def freeHeaders (m : Memory) (headers : List Nat) : List Nat :=
  headers.filter fun q => load m q 4 % 2 = 0

/-- From `p`, where `count` free blocks have been collected, blocks that pass every
assertion lead to `q`. -/
structure Passes (m : Memory) (p count : Nat) (headers : List Nat) (q : Nat) : Prop where
  tiled : Tiles id (blockSize m) p headers q
  sizes : ∀ h ∈ headers, BlockOk m h
  room : count + (freeHeaders m headers).length ≤ maxNodes

/-- No block that the walk comes to reaches past the end of the address space. -/
def StaysBelow (m : Memory) (heapHi p count : Nat) : Prop :=
  ∀ headers q, Passes m p count headers q → q < heapHi → q + blockSize m q < 2 ^ 64

theorem size_lt (m : Memory) (q : Nat) : blockSize m q < 2 ^ 32 :=
  Nat.lt_of_le_of_lt (tagSize_le _) (load_lt m q 4)

/-- Below the last 4 GiB of the address space a 32-bit size does not reach past the
end. -/
theorem staysBelow_of_le {count : Nat} (hhi : heapHi + 2 ^ 32 ≤ 2 ^ 64) :
    StaysBelow m heapHi p count := by
  intro headers q _ hq
  have hlt := size_lt m q
  omega

theorem StaysBelow.here {count : Nat} (h : StaysBelow m heapHi p count) (hp : p < heapHi)
    (hcount : count ≤ maxNodes) : p + blockSize m p < 2 ^ 64 :=
  h [] p ⟨rfl, by simp, hcount⟩ hp

theorem StaysBelow.next {count count' : Nat} (h : StaysBelow m heapHi p count)
    (hok : BlockOk m p) (hcount : count + (freeHeaders m [p]).length = count') :
    StaysBelow m heapHi (p + blockSize m p) count' := by
  intro headers q hpasses hq
  refine h (p :: headers) q ⟨⟨rfl, hpasses.tiled⟩, ?_, ?_⟩ hq
  · exact List.forall_mem_cons.mpr ⟨hok, hpasses.sizes⟩
  · have hroom := hpasses.room
    have happend : freeHeaders m (p :: headers) = freeHeaders m [p] ++ freeHeaders m headers :=
      List.filter_append [p] headers
    rw [happend, List.length_append]
    omega

theorem ends_checkBlock : Ends (checkBlock (readAll m) heapHi p) := by
  unfold checkBlock
  refine (ends_readAll _ _ _).bind fun tag _ => ?_
  refine (ends_require _ _).bind fun _ _ => ?_
  refine (ends_require _ _).bind fun _ _ => ?_
  refine (ends_require _ _).bind fun _ _ => ?_
  refine (ends_readAll _ _ _).bind fun footer _ => ?_
  exact (ends_require _ _).bind fun _ _ => ends_ok _

/-- What a block that has passed says, where it does not wrap around. -/
theorem checkBlock_fits {tag : Nat} (hlt : p + blockSize m p < 2 ^ 64)
    (h : checkBlock (readAll m) heapHi p = .ok tag) :
    tag = load m p 4 ∧ BlockOk m p ∧ ptrAdd p (tagSize tag) = p + blockSize m p ∧
      p + blockSize m p ≤ heapHi := by
  obtain ⟨rfl, haligned, hmin, hheap, hfooter⟩ := checkBlock_eq_ok.mp h
  have hnext : ptrAdd p (blockSize m p) = p + blockSize m p := by
    unfold ptrAdd
    omega
  have hfoot : ptrSub (p + blockSize m p) 4 = p + blockSize m p - 4 := by
    unfold ptrSub
    omega
  rw [hnext] at hheap hfooter
  rw [hfoot] at hfooter
  exact ⟨rfl, ⟨haligned, hmin, hfooter⟩, hnext, hheap⟩

theorem freeHeaders_clear (h : load m p 4 % 2 = 0) : freeHeaders m [p] = [p] := by
  simp [freeHeaders, h]

theorem freeHeaders_set (h : ¬ load m p 4 % 2 = 0) : freeHeaders m [p] = [] := by
  simp [freeHeaders, h]

/-- The walk over the blocks ends. -/
theorem ends_collect {fuel : Nat} {free : List Nat} {used : Nat}
    (hbelow : StaysBelow m heapHi p free.length) (hcount : free.length ≤ maxNodes)
    (hfuel : heapHi - p < fuel) :
    Ends (collect (readAll m) heapHi fuel p free used) := by
  induction fuel generalizing p free used with
  | zero => omega
  | succ fuel ih =>
      unfold collect
      split
      · next hp =>
          refine ends_checkBlock.bind fun tag htag => ?_
          obtain ⟨rfl, hok, hnext, hle⟩ := checkBlock_fits (hbelow.here hp hcount) htag
          have hmin := hok.2.1
          rw [hnext]
          split
          · next hclear =>
              refine (ends_require _ _).bind fun _ hroom => ?_
              have hlt := require_eq_ok.mp hroom
              have hlength : (free ++ [p]).length = free.length + 1 := by simp
              refine ih (hbelow.next hok ?_) (by omega) (by omega)
              rw [freeHeaders_clear hclear, hlength]
              rfl
          · next hset =>
              refine ih (hbelow.next hok ?_) hcount (by omega)
              rw [freeHeaders_set hset]
              rfl
      · exact ends_ok _

/-- The walk over the blocks has met a tiling, and has collected its free blocks and
the bytes of the others. -/
theorem collect_sound {fuel : Nat} {free free' : List Nat} {used used' : Nat}
    (hhi : heapHi < 2 ^ 64) (hbelow : StaysBelow m heapHi p free.length)
    (hcount : free.length ≤ maxNodes) (hp : p ≤ heapHi)
    (hused : used + (heapHi - p) < 2 ^ 64)
    (h : collect (readAll m) heapHi fuel p free used = .ok (free', used')) :
    ∃ headers, Tiles id (blockSize m) p headers heapHi ∧ (∀ q ∈ headers, BlockOk m q) ∧
      free' = free ++ freeHeaders m headers ∧
      used' = used +
        ((headers.filter fun q => load m q 4 % 2 = 1).map (blockSize m)).sum := by
  induction fuel generalizing p free used with
  | zero => simp [collect] at h
  | succ fuel ih =>
      unfold collect at h
      split at h
      · next hlt =>
          obtain ⟨tag, htag, hrest⟩ := bind_eq_ok.mp h
          obtain ⟨rfl, hok, hnext, hle⟩ := checkBlock_fits (hbelow.here hlt hcount) htag
          have happend : ∀ headers, freeHeaders m (p :: headers) =
              freeHeaders m [p] ++ freeHeaders m headers :=
            fun headers => List.filter_append [p] headers
          rw [hnext] at hrest
          have hsize : tagSize (load m p 4) = blockSize m p := rfl
          split at hrest
          · next hclear =>
              obtain ⟨_, hroom, hrest⟩ := bind_eq_ok.mp hrest
              have hlt' := require_eq_ok.mp hroom
              have hlength : (free ++ [p]).length = free.length + 1 := by simp
              have hbelow' : StaysBelow m heapHi (p + blockSize m p) (free ++ [p]).length :=
                hbelow.next hok (by rw [freeHeaders_clear hclear, hlength]; rfl)
              obtain ⟨headers, htiles, hblocks, hfree, hsum⟩ :=
                ih hbelow' (by omega) hle (by omega) hrest
              refine ⟨p :: headers, ⟨rfl, htiles⟩, ?_, ?_, ?_⟩
              · exact List.forall_mem_cons.mpr ⟨hok, hblocks⟩
              · rw [hfree, happend, freeHeaders_clear hclear, List.append_assoc]
              · simp [hsum, hclear]
          · next hset =>
              have hodd : load m p 4 % 2 = 1 := by omega
              have hadd : ptrAdd used (tagSize (load m p 4)) = used + blockSize m p := by
                rw [hsize]
                unfold ptrAdd
                omega
              rw [hadd] at hrest
              have hbelow' : StaysBelow m heapHi (p + blockSize m p) free.length :=
                hbelow.next hok (by rw [freeHeaders_set hset]; rfl)
              obtain ⟨headers, htiles, hblocks, hfree, hsum⟩ :=
                ih hbelow' hcount hle (by omega) hrest
              refine ⟨p :: headers, ⟨rfl, htiles⟩, ?_, ?_, ?_⟩
              · exact List.forall_mem_cons.mpr ⟨hok, hblocks⟩
              · rw [hfree, happend, freeHeaders_set hset, List.nil_append]
              · simp [hsum, hodd, Nat.add_assoc]
      · next hge =>
          have hend : p = heapHi := by omega
          obtain ⟨rfl, rfl⟩ := Prod.mk.inj (Except.ok.inj h)
          exact ⟨[], hend, by simp, by simp [freeHeaders], by simp⟩

/-- The walk from `p` comes to `q`. -/
def ComesTo (m : Memory) (heapHi p q : Nat) : Prop :=
  ∃ n free used, ∀ fuel, collect (readAll m) heapHi (fuel + n) p [] 0 =
    collect (readAll m) heapHi fuel q free used

/-- One block that passes is one iteration. -/
theorem collect_next (hhi : heapHi < 2 ^ 64) (hok : BlockOk m p)
    (hnext : p + blockSize m p < heapHi) (free : List Nat) (used : Nat)
    (hroom : free.length + (freeHeaders m [p]).length ≤ maxNodes) :
    ∃ used', ∀ fuel, collect (readAll m) heapHi (fuel + 1) p free used =
      collect (readAll m) heapHi fuel (p + blockSize m p) (free ++ freeHeaders m [p]) used' := by
  obtain ⟨haligned, hmin, hfooter⟩ := hok
  have hadd : ptrAdd p (blockSize m p) = p + blockSize m p := by
    unfold ptrAdd
    omega
  have hfoot : ptrSub (p + blockSize m p) 4 = p + blockSize m p - 4 := by
    unfold ptrSub
    omega
  have hblock : checkBlock (readAll m) heapHi p = .ok (load m p 4) := by
    refine checkBlock_eq_ok.mpr ⟨rfl, haligned, hmin, ?_, ?_⟩
    · rw [hadd]
      omega
    · rw [hadd, hfoot, hfooter]
  have hsize : tagSize (load m p 4) = blockSize m p := rfl
  by_cases hclear : load m p 4 % 2 = 0
  · have hlt : free.length < maxNodes := by
      rw [freeHeaders_clear hclear, List.length_singleton] at hroom
      omega
    refine ⟨used, fun fuel => ?_⟩
    rw [collect, if_pos (by omega), hblock, freeHeaders_clear hclear, ← hadd]
    change (if load m p 4 % 2 = 0 then _ else _) = _
    rw [if_pos hclear, require, if_pos hlt]
    rfl
  · refine ⟨ptrAdd used (blockSize m p), fun fuel => ?_⟩
    rw [collect, if_pos (by omega), hblock, freeHeaders_set hclear, List.append_nil, ← hadd]
    change (if load m p 4 % 2 = 0 then _ else _) = _
    rw [if_neg hclear, hsize]

/-- Blocks that pass are passed. -/
theorem Passes.comesTo {headers : List Nat} {q : Nat} (hhi : heapHi < 2 ^ 64)
    (h : Passes m p 0 headers q) (hq : q < heapHi) : ComesTo m heapHi p q := by
  have hwalk : ∀ (headers free : List Nat) (p used : Nat), Passes m p free.length headers q →
      ∃ free' used', ∀ fuel, collect (readAll m) heapHi (fuel + headers.length) p free used =
        collect (readAll m) heapHi fuel q free' used' := by
    intro headers
    induction headers with
    | nil =>
        intro free p used hpasses
        obtain rfl : p = q := hpasses.tiled
        exact ⟨free, used, fun _ => rfl⟩
    | cons first rest ih =>
        intro free p used hpasses
        obtain ⟨⟨hfirst, htiles⟩, hsizes, hroom⟩ := hpasses
        obtain rfl : first = p := hfirst
        obtain ⟨hok, hrest⟩ := List.forall_mem_cons.mp hsizes
        have happend : freeHeaders m (first :: rest) =
            freeHeaders m [first] ++ freeHeaders m rest := List.filter_append [first] rest
        rw [happend, List.length_append] at hroom
        have hle := htiles.le
        obtain ⟨used₁, hnext⟩ := collect_next hhi hok (show first + blockSize m first < heapHi
          by omega) free used (by omega)
        obtain ⟨free', used', hwalk⟩ := ih (free ++ freeHeaders m [first]) _ used₁
          ⟨htiles, hrest, by rw [List.length_append]; omega⟩
        refine ⟨free', used', fun fuel => ?_⟩
        rw [List.length_cons, ← Nat.add_assoc, hnext (fuel + rest.length)]
        exact hwalk fuel
  obtain ⟨free', used', hcomes⟩ := hwalk headers [] p 0 h
  exact ⟨headers.length, free', used', hcomes⟩

/-- The walk comes to a block that exceeds the heap and whose sum passes the comparison with
`heap_hi` all the same, since it has wrapped around. -/
def PassesEnd (m : Memory) (heapHi p : Nat) : Prop :=
  ∃ q, ComesTo m heapHi p q ∧ q < heapHi ∧ heapHi < q + blockSize m q ∧
    ptrAdd q (blockSize m q) ≤ heapHi

theorem passesEnd_of_not_staysBelow (hhi : heapHi < 2 ^ 64)
    (h : ¬ StaysBelow m heapHi p 0) : PassesEnd m heapHi p := by
  unfold StaysBelow at h
  push Not at h
  obtain ⟨headers, q, hpasses, hq, hpast⟩ := h
  refine ⟨q, hpasses.comesTo hhi hq, hq, by omega, ?_⟩
  have hlt := size_lt m q
  unfold ptrAdd
  omega

end Walks

section Lists

variable {m : Memory} {s : Globals ι} {free : List Nat} {ownBin : Nat → Check Unit}
  {fuel p count total : Nat}

/-- The walk over a list ends: a list that does not is cut off. -/
theorem ends_crossCheck (hown : ∀ p, Ends (ownBin p)) (hfuel : maxNodes - count < fuel) :
    Ends (crossCheck (readAll m) s free ownBin fuel p count) := by
  induction fuel generalizing p count with
  | zero => omega
  | succ fuel ih =>
      unfold crossCheck
      split
      · exact ends_ok _
      · refine Ends.bind ?_ fun next hnext => ?_
        · unfold checkNode
          refine (ends_readAll _ _ _).bind fun _ _ => ?_
          refine (ends_require _ _).bind fun _ _ => ?_
          refine (ends_require _ _).bind fun _ _ => ?_
          refine (ends_require _ _).bind fun _ _ => ?_
          refine (hown p).bind fun _ _ => ?_
          exact (ends_require _ _).bind fun _ _ => ends_readAll _ _ _
        · simp only [checkNode, bind_eq_ok, require_eq_ok] at hnext
          obtain ⟨_, _, _, _, _, _, _, hcut, _⟩ := hnext
          exact ih (by omega)

/-- The walk over a list has met a chain of collected blocks, each in its own bin. -/
theorem crossCheck_sound
    (h : crossCheck (readAll m) s free ownBin fuel p count = .ok total) :
    ∃ nodes, Linked (nextFree m) 0 p nodes ∧ total = count + nodes.length ∧
      ∀ node ∈ nodes, node ∈ free ∧ ownBin node = .ok () := by
  induction fuel generalizing p count with
  | zero => simp [crossCheck] at h
  | succ fuel ih =>
      unfold crossCheck at h
      split at h
      · next hnull =>
          refine ⟨[], linked_nil.mpr hnull, ?_, by simp⟩
          exact (Except.ok.inj h).symm
      · next hnull =>
          obtain ⟨next, hnext, hrest⟩ := bind_eq_ok.mp h
          simp only [checkNode, readAll, bind_eq_ok, require_eq_ok, Except.ok.injEq] at hnext
          obtain ⟨_, _, _, _, _, _, _, _, _, hown, _, hfound, rfl⟩ := hnext
          obtain ⟨nodes, hlinked, hcount, hnodes⟩ := ih hrest
          refine ⟨p :: nodes, linked_cons.mpr ⟨rfl, hnull, hlinked⟩, ?_, ?_⟩
          · rw [hcount, List.length_cons]
            omega
          · exact List.forall_mem_cons.mpr ⟨⟨hfound, hown⟩, hnodes⟩

variable {own : ι → Nat → Check Unit} {bins : List ι}

theorem ends_crossChecks (hown : ∀ i p, Ends (own i p)) (hfuel : maxNodes < fuel) :
    Ends (bins.foldlM (fun count bin =>
      crossCheck (readAll m) s free (own bin) fuel (s.freeHead bin) count) count) := by
  induction bins generalizing count with
  | nil => exact ends_ok _
  | cons bin rest ih =>
      rw [List.foldlM_cons]
      refine (ends_crossCheck (hown bin) (by omega)).bind fun _ _ => ih

/-- The walks over all lists. -/
theorem crossChecks_sound [DecidableEq ι] (hnodup : bins.Nodup)
    (h : bins.foldlM (fun count bin =>
      crossCheck (readAll m) s free (own bin) fuel (s.freeHead bin) count) count = .ok total) :
    ∃ nodes : ι → List Nat,
      (∀ i ∈ bins, Linked (nextFree m) 0 (s.freeHead i) (nodes i) ∧
        ∀ node ∈ nodes i, node ∈ free ∧ own i node = .ok ()) ∧
      total = count + (bins.map fun i => (nodes i).length).sum := by
  induction bins generalizing count with
  | nil =>
      refine ⟨fun _ => [], by simp, ?_⟩
      exact (Except.ok.inj h).symm
  | cons bin rest ih =>
      rw [List.foldlM_cons] at h
      obtain ⟨middle, hfirst, hrest⟩ := bind_eq_ok.mp h
      obtain ⟨hnew, hnodup⟩ := List.nodup_cons.mp hnodup
      obtain ⟨nodes, hnodes, htotal⟩ := ih hnodup hrest
      obtain ⟨here, hlinked, hmiddle, hown⟩ := crossCheck_sound hfirst
      have hother : ∀ i ∈ rest, Function.update nodes bin here i = nodes i := by
        intro i hi
        have hne : i ≠ bin := fun heq => hnew (heq ▸ hi)
        exact Function.update_of_ne hne _ _
      refine ⟨Function.update nodes bin here, ?_, ?_⟩
      · refine List.forall_mem_cons.mpr ⟨?_, fun i hi => ?_⟩
        · rw [Function.update_self]
          exact ⟨hlinked, hown⟩
        · rw [hother i hi]
          exact hnodes i hi
      · have hsum : (rest.map fun i => (Function.update nodes bin here i).length) =
            rest.map fun i => (nodes i).length :=
          List.map_congr_left fun i hi => by rw [hother i hi]
        rw [List.map_cons, List.sum_cons, Function.update_self, hsum, htotal, hmiddle]
        omega

end Lists

/-- What a heap that has passed is: `headers` tile it, and the lists hold exactly the
blocks whose flag is clear, each once. -/
structure Checked [Fintype ι] (s : Globals ι) (headers : List Nat) (nodes : ι → List Nat) :
    Prop where
  tiled : Tiles id (blockSize s.mem) s.heapLo headers s.heapHi
  sizes : ∀ h ∈ headers, BlockOk s.mem h
  linked : ∀ i, Linked (nextFree s.mem) 0 (s.freeHead i) (nodes i)
  nodup : ∀ i, (nodes i).Nodup
  apart : ∀ i j h, h ∈ nodes i → h ∈ nodes j → i = j
  free : ∀ h, (∃ i, h ∈ nodes i) ↔ h ∈ headers ∧ load s.mem h 4 % 2 = 0
  length : s.stat.freelistLen = ∑ i, (nodes i).length

section Sound

variable {s : Globals ι} {bins : List ι} {ownBin : Reader → ι → Nat → Check Unit}
  {liveBytes : Nat → Check Unit} {fuel : Nat}

theorem ends_checkWith (hbelow : StaysBelow s.mem s.heapHi s.heapLo 0)
    (hown : ∀ i p, Ends (ownBin (readAll s.mem) i p)) (hlive : ∀ used, Ends (liveBytes used))
    (hfuel : s.heapHi + maxNodes < fuel) :
    Ends (checkWith bins ownBin liveBytes (readAll s.mem) fuel s) := by
  unfold checkWith
  refine (ends_collect hbelow (Nat.zero_le _) (by omega)).bind fun _ _ => ?_
  refine (hlive _).bind fun _ _ => ?_
  refine (ends_crossChecks hown (by omega)).bind fun _ _ => ?_
  exact (ends_require _ _).bind fun _ _ => ends_require _ _

/-- A check that returns has seen a well-formed heap.  The lists hold collected
blocks only, none twice, and as many as were collected. -/
theorem checkWith_sound [DecidableEq ι] [Fintype ι] (hhi : s.heapHi < 2 ^ 64)
    (hle : s.heapLo ≤ s.heapHi)
    (hbelow : StaysBelow s.mem s.heapHi s.heapLo 0) (hbins : bins.Nodup) (hall : ∀ i, i ∈ bins)
    (hapart : ∀ i j p, ownBin (readAll s.mem) i p = .ok () →
      ownBin (readAll s.mem) j p = .ok () → i = j)
    (h : checkWith bins ownBin liveBytes (readAll s.mem) fuel s = .ok ()) :
    ∃ headers nodes, Checked s headers nodes ∧
      (∀ i, ∀ p ∈ nodes i, ownBin (readAll s.mem) i p = .ok ()) ∧
      liveBytes ((headers.filter fun q => load s.mem q 4 % 2 = 1).map (blockSize s.mem)).sum =
        .ok () := by
  unfold checkWith at h
  obtain ⟨⟨free, used⟩, hcollect, h⟩ := bind_eq_ok.mp h
  obtain ⟨_, hlive, h⟩ := bind_eq_ok.mp h
  obtain ⟨count, hcross, h⟩ := bind_eq_ok.mp h
  obtain ⟨_, hsame, h⟩ := bind_eq_ok.mp h
  have hlen := require_eq_ok.mp h
  have hcount := require_eq_ok.mp hsame
  obtain ⟨headers, htiled, hsizes, hfree, hused⟩ :=
    collect_sound hhi hbelow (Nat.zero_le _) hle (by omega) hcollect
  obtain ⟨nodes, hnodes, htotal⟩ := crossChecks_sound hbins hcross
  rw [List.nil_append] at hfree
  rw [Nat.zero_add] at hused htotal
  subst hfree hused
  have hapart' : ∀ i j p, p ∈ nodes i → p ∈ nodes j → i = j := by
    intro i j p hi hj
    exact hapart i j p ((hnodes i (hall i)).2 p hi).2 ((hnodes j (hall j)).2 p hj).2
  -- The visited blocks: no block twice, and all of them collected.
  have hvisited : (bins.flatMap nodes).Nodup := by
    refine List.nodup_flatMap.mpr ⟨fun i _ => (hnodes i (hall i)).1.nodup, ?_⟩
    refine hbins.imp_of_mem fun {i j} _ _ hne => ?_
    intro p hi hj
    exact hne (hapart' i j p hi hj)
  have hsub : bins.flatMap nodes ⊆ freeHeaders s.mem headers := by
    intro p hp
    obtain ⟨i, hi, hmem⟩ := List.mem_flatMap.mp hp
    exact ((hnodes i hi).2 p hmem).1
  have hperm := (hvisited.subperm hsub).perm_of_length_le (by
    rw [hcount, htotal, List.length_flatMap])
  refine ⟨headers, nodes, ⟨htiled, hsizes, fun i => (hnodes i (hall i)).1,
    fun i => (hnodes i (hall i)).1.nodup, hapart', ?_, ?_⟩, ?_, hlive⟩
  · intro p
    have hmem := hperm.mem_iff (a := p)
    rw [List.mem_flatMap, freeHeaders, List.mem_filter, decide_eq_true_eq] at hmem
    rw [← hmem]
    constructor
    · rintro ⟨i, hi⟩
      exact ⟨i, hall i, hi⟩
    · rintro ⟨i, _, hi⟩
      exact ⟨i, hi⟩
  · rw [← hlen, htotal, ← List.sum_toFinset _ hbins]
    congr 1
    exact Finset.eq_univ_iff_forall.mpr fun i => List.mem_toFinset.mpr (hall i)
  · intro i p hp
    exact ((hnodes i (hall i)).2 p hp).2

/-- A tiling passes through every place that the sizes lead to. -/
theorem Checked.staysBelow [Fintype ι] {headers : List Nat} {nodes : ι → List Nat}
    (h : Checked s headers nodes) (hhi : s.heapHi < 2 ^ 64) :
    StaysBelow s.mem s.heapHi s.heapLo 0 := by
  have hpass : ∀ {headers passed : List Nat} {p q : Nat},
      Tiles id (blockSize s.mem) p headers s.heapHi →
      Tiles id (blockSize s.mem) p passed q → q < s.heapHi →
      q + blockSize s.mem q ≤ s.heapHi := by
    intro headers passed
    induction passed generalizing headers with
    | nil =>
        intro p q htiles hpassed hq
        have hpq : p = q := hpassed
        cases headers with
        | nil =>
            have hend : p = s.heapHi := htiles
            omega
        | cons first rest =>
            have hfirst : first = p := htiles.1
            have hle := htiles.2.le
            rw [hfirst] at hle
            rwa [← hpq]
    | cons other passed ih =>
        intro p q htiles hpassed hq
        cases headers with
        | nil =>
            have hend : p = s.heapHi := htiles
            have hle := hpassed.2.le
            omega
        | cons first rest =>
            have hsame : first = other := htiles.1.trans hpassed.1.symm
            subst hsame
            exact ih htiles.2 hpassed.2 hq
  intro passed q hpassed hq
  have hle := hpass h.tiled hpassed.tiled hq
  omega

end Sound

/-- The checker, given fuel, on one memory and one set of globals: it ends, and if it
returns, the heap is `valid`. -/
def Meets (check : Nat → Check Unit) (valid : Prop) : Prop :=
  (∃ fuel, Ends (check fuel)) ∧ ∀ fuel, check fuel = .ok () → valid

/-- The heap that `check_invariant` of `allocator.c` vouches for. -/
def FirstFit.Valid (s : Globals Unit) : Prop := ∃ headers nodes, Checked s headers nodes

/-- The heap that `check_invariant` of `segregated_allocator.c` vouches for: also,
each free block is in the bin of its size, and `live_real_bytes` is the sum of the
used chunks. -/
def Segregated.Valid (s : Segregated.State) : Prop :=
  ∃ headers nodes, Checked s headers nodes ∧
    (∀ i, ∀ h ∈ nodes i, Segregated.sizeToBin (blockSize s.mem h) = i) ∧
    s.stat.liveRealBytes =
      ((headers.filter fun h => load s.mem h 4 % 2 = 1).map (blockSize s.mem)).sum

section Checkers

theorem FirstFit.checkInvariant_meets {s : Globals Unit} (hhi : s.heapHi < 2 ^ 64)
    (hle : s.heapLo ≤ s.heapHi) (hbelow : StaysBelow s.mem s.heapHi s.heapLo 0) :
    Meets (FirstFit.checkInvariant (readAll s.mem) · s) (FirstFit.Valid s) := by
  refine ⟨⟨s.heapHi + maxNodes + 1, ?_⟩, fun fuel h => ?_⟩
  · exact ends_checkWith hbelow (fun _ _ => ends_ok _) (fun _ => ends_ok _) (by omega)
  · obtain ⟨headers, nodes, hchecked, _⟩ := checkWith_sound hhi hle hbelow (by simp)
      (by simp) (fun _ _ _ _ _ => rfl) h
    exact ⟨headers, nodes, hchecked⟩

theorem Segregated.checkInvariant_meets {s : Segregated.State} (hhi : s.heapHi < 2 ^ 64)
    (hle : s.heapLo ≤ s.heapHi) (hbelow : StaysBelow s.mem s.heapHi s.heapLo 0) :
    Meets (Segregated.checkInvariant (readAll s.mem) · s) (Segregated.Valid s) := by
  have hown : ∀ (i : Segregated.Bin) (p : Nat) (u : Unit), (do
      let tag ← readAll s.mem p 4
      require .ownBin (Segregated.sizeToBin (tagSize tag) = i)) = Except.ok u ↔
        Segregated.sizeToBin (blockSize s.mem p) = i := by
    intro i p u
    simp [bind_eq_ok, readAll, require_eq_ok, blockSize]
  refine ⟨⟨s.heapHi + maxNodes + 1, ?_⟩, fun fuel h => ?_⟩
  · refine ends_checkWith hbelow (fun _ _ => ?_) (fun _ => ends_require _ _) (by omega)
    exact (ends_readAll _ _ _).bind fun _ _ => ends_require _ _
  · obtain ⟨headers, nodes, hchecked, hbinned, hlive⟩ :=
      checkWith_sound hhi hle hbelow (List.nodup_finRange 11) List.mem_finRange
        (fun i j p hi hj => ((hown i p ()).mp hi).symm.trans ((hown j p ()).mp hj)) h
    refine ⟨headers, nodes, hchecked, fun i p hp => (hown i p ()).mp (hbinned i p hp), ?_⟩
    exact (require_eq_ok.mp hlive).symm

/-- A checker that meets its purpose although a block passes the end of the address
space owes it to an assertion that fails. -/
theorem Meets.fails {check : Nat → Check Unit} {valid : Prop} (h : Meets check valid)
    (hnot : ¬ valid) : ∃ fuel assertion, check fuel = .error (.failed assertion) := by
  obtain ⟨⟨fuel, ⟨_, hok⟩ | hfails⟩, hsound⟩ := h
  · exact absurd (hsound fuel hok) hnot
  · exact ⟨fuel, hfails⟩

/-- Soundness of both checkers for every memory and all globals.  Where no block that the
walk comes to reaches past the end of the address space, the check ends, and a heap that
passes is well formed.  Elsewhere the walk comes to a block that exceeds the heap and passes
the comparison, and the property holds only by an assertion that fails. -/
theorem checker_soundness (s : Globals Unit) (t : Segregated.State) :
    (s.heapHi < 2 ^ 64 → s.heapLo ≤ s.heapHi →
      (StaysBelow s.mem s.heapHi s.heapLo 0 →
        Meets (FirstFit.checkInvariant (readAll s.mem) · s) (FirstFit.Valid s)) ∧
      (¬ StaysBelow s.mem s.heapHi s.heapLo 0 → PassesEnd s.mem s.heapHi s.heapLo ∧
        (Meets (FirstFit.checkInvariant (readAll s.mem) · s) (FirstFit.Valid s) →
          ∃ fuel assertion,
            FirstFit.checkInvariant (readAll s.mem) fuel s = .error (.failed assertion)))) ∧
    (t.heapHi < 2 ^ 64 → t.heapLo ≤ t.heapHi →
      (StaysBelow t.mem t.heapHi t.heapLo 0 →
        Meets (Segregated.checkInvariant (readAll t.mem) · t) (Segregated.Valid t)) ∧
      (¬ StaysBelow t.mem t.heapHi t.heapLo 0 → PassesEnd t.mem t.heapHi t.heapLo ∧
        (Meets (Segregated.checkInvariant (readAll t.mem) · t) (Segregated.Valid t) →
          ∃ fuel assertion,
            Segregated.checkInvariant (readAll t.mem) fuel t = .error (.failed assertion)))) := by
  refine ⟨fun hhi hle => ⟨FirstFit.checkInvariant_meets hhi hle, fun hpast =>
      ⟨passesEnd_of_not_staysBelow hhi hpast, fun hmeets => ?_⟩⟩,
    fun hhi hle => ⟨Segregated.checkInvariant_meets hhi hle, fun hpast =>
      ⟨passesEnd_of_not_staysBelow hhi hpast, fun hmeets => ?_⟩⟩⟩
  · apply hmeets.fails
    rintro ⟨headers, nodes, hchecked⟩
    exact hpast (hchecked.staysBelow hhi)
  · apply hmeets.fails
    rintro ⟨headers, nodes, hchecked, _⟩
    exact hpast (hchecked.staysBelow hhi)

/-- One used block of sixteen bytes. -/
def oneBlock (ι : Type) : Globals ι :=
  { Globals.initial ι with
    mem := setTags (fun _ => 0) 4108 17
    heapLo := 4108
    heapHi := 4124
    stat := { liveRealBytes := 16 } }

/-- A heap of one block passes both checks, and is well formed for that. -/
theorem checker_soundness_example :
    (FirstFit.checkInvariant (readAll (oneBlock Unit).mem) 2 (oneBlock Unit) = .ok () ∧
      FirstFit.Valid (oneBlock Unit)) ∧
    Segregated.checkInvariant (readAll (oneBlock Segregated.Bin).mem) 2
        (oneBlock Segregated.Bin) = .ok () ∧ Segregated.Valid (oneBlock Segregated.Bin) := by
  have hpass : FirstFit.checkInvariant (readAll (oneBlock Unit).mem) 2 (oneBlock Unit) =
      .ok () := by rfl
  have hpass' : Segregated.checkInvariant (readAll (oneBlock Segregated.Bin).mem) 2
      (oneBlock Segregated.Bin) = .ok () := by rfl
  have hsound := checker_soundness (oneBlock Unit) (oneBlock Segregated.Bin)
  refine ⟨⟨hpass, ?_⟩, hpass', ?_⟩
  · have hmeets := (hsound.1 (by decide) (by decide)).1 (staysBelow_of_le (by decide))
    exact hmeets.2 2 hpass
  · have hmeets := (hsound.2 (by decide) (by decide)).1 (staysBelow_of_le (by decide))
    exact hmeets.2 2 hpass'

/-- The globals that a failed first request leaves, over a memory that is full of the
byte `0x11`. -/
def endlessHeap (ι : Type) : Globals ι :=
  { Globals.initial ι with mem := fun _ => 0x11, heapHi := mapFailed }

/-- Every word is the header and the footer of a used block, and the walk goes round
and round. -/
theorem endlessHeap_runs {fuel p used : Nat} {free : List Nat} (hp : p % 16 = 0)
    (hlt : p < 2 ^ 64) :
    collect (readAll (endlessHeap ι).mem) mapFailed fuel p free used = .error .running := by
  have hword : ∀ addr, load (endlessHeap ι).mem addr 4 = 0x11111111 := by
    intro addr
    simp [load, endlessHeap]
  induction fuel generalizing p used with
  | zero => rfl
  | succ fuel ih =>
      have hbelow : p < mapFailed := by
        unfold mapFailed
        omega
      have hnext : ptrAdd p (tagSize 0x11111111) < 2 ^ 64 := Nat.mod_lt _ (by decide)
      have hmod : ptrAdd p (tagSize 0x11111111) % 16 = 0 := by
        unfold ptrAdd tagSize
        omega
      have hblock : checkBlock (readAll (endlessHeap ι).mem) mapFailed p =
          .ok 0x11111111 := by
        refine checkBlock_eq_ok.mpr ⟨(hword p).symm, ?_⟩
        unfold blockSize
        rw [hword, hword]
        refine ⟨by decide, by decide, ?_, rfl⟩
        unfold mapFailed
        omega
      unfold collect
      rw [if_pos hbelow, hblock]
      exact ih hmod hnext

theorem endlessHeap_not_ends (bins : List ι) (ownBin : Reader → ι → Nat → Check Unit)
    (liveBytes : Nat → Check Unit) (fuel : Nat) :
    ¬ Ends (checkWith bins ownBin liveBytes (readAll (endlessHeap ι).mem) fuel
      (endlessHeap ι)) := by
  have hrun : collect (readAll (endlessHeap ι).mem) (endlessHeap ι).heapHi fuel
      (endlessHeap ι).heapLo [] 0 = .error .running := endlessHeap_runs rfl (Nat.two_pow_pos 64)
  unfold checkWith
  rw [hrun]
  rintro (⟨_, h⟩ | ⟨_, h⟩)
  · exact absurd h (by simp [bind, Except.bind])
  · exact absurd h (by simp [bind, Except.bind])

/-- The check of this heap never ends. -/
theorem checker_soundness_fails :
    ((endlessHeap Unit).heapLo ≤ (endlessHeap Unit).heapHi ∧
      ¬ Meets (FirstFit.checkInvariant (readAll (endlessHeap Unit).mem) · (endlessHeap Unit))
        (FirstFit.Valid (endlessHeap Unit))) ∧
    (endlessHeap Segregated.Bin).heapLo ≤ (endlessHeap Segregated.Bin).heapHi ∧
      ¬ Meets (Segregated.checkInvariant (readAll (endlessHeap Segregated.Bin).mem) ·
          (endlessHeap Segregated.Bin))
        (Segregated.Valid (endlessHeap Segregated.Bin)) := by
  refine ⟨⟨by decide, fun hmeets => ?_⟩, by decide, fun hmeets => ?_⟩
  · obtain ⟨fuel, hends⟩ := hmeets.1
    exact endlessHeap_not_ends _ _ _ fuel hends
  · obtain ⟨fuel, hends⟩ := hmeets.1
    exact endlessHeap_not_ends _ _ _ fuel hends

end Checkers

end AllocSitter
