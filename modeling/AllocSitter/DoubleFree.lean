/-
A pointer that `allocator.c` has freed may be freed again: its old header keeps a clear flag
through all merges and splits around it, until a new block covers it.
-/
import AllocSitter.HeaderBits
import AllocSitter.ExactChunks

namespace AllocSitter

namespace FirstFit

open ByteMemory LinkedChain Tiling

/-- The block that a call has returned at `q` overlaps an old one, which is given by its
pointer and its size. -/
def Overlaps (w : Client Unit) (q : Nat) (old : Nat × Nat) : Prop :=
  q ≠ 0 ∧ q < old.1 + old.2 ∧ old.1 < q + w.chunk q

instance (w : Client Unit) (q : Nat) (old : Nat × Nat) : Decidable (Overlaps w q old) :=
  inferInstanceAs (Decidable (_ ∧ _ ∧ _))

/-- A client that has kept the pointers it gave up, each with the size that its block had.
One is forgotten when a block overlaps its old one. -/
structure Dangling where
  client : Client Unit
  freed : List (Nat × Nat)

namespace Dangling

def initial : Dangling := ⟨Client.initial Unit, []⟩

/-- The pointers of `w` that `w'` does not hold any more. -/
def givenUp (w w' : Client Unit) : List (Nat × Nat) :=
  (w.live.filter fun entry => ¬ w'.Holds entry.1).map fun entry => (entry.1, w.chunk entry.1)

def step (mmap : Mmap) (d : Dangling) (call : Call) : Option Dangling :=
  (d.client.exec (api mmap) call).map fun result =>
    ⟨result.1, (givenUp d.client result.1 ++ d.freed).filter fun old =>
      ¬ Overlaps result.1 result.2 old⟩

/-- A call that is given a pointer already freed; the size of a resize is bounded. -/
def Repeats (resizeMax : Nat) (d : Dangling) : Call → Prop
  | .free ptr => ∃ old ∈ d.freed, old.1 = ptr
  | .realloc ptr size => (∃ old ∈ d.freed, old.1 = ptr) ∧ size ≤ resizeMax
  | _ => False

instance (resizeMax : Nat) (d : Dangling) : ∀ call, Decidable (d.Repeats resizeMax call)
  | .free ptr => inferInstanceAs (Decidable (∃ old ∈ d.freed, old.1 = ptr))
  | .realloc ptr size =>
      inferInstanceAs (Decidable ((∃ old ∈ d.freed, old.1 = ptr) ∧ size ≤ resizeMax))
  | .malloc _ => .isFalse id
  | .calloc _ _ => .isFalse id
  | .write _ _ => .isFalse id
  | .statReset => .isFalse id

/-- The call returns no block that overlaps `old`. -/
def Spares (mmap : Mmap) (old : Nat × Nat) (d : Dangling) (call : Call) : Prop :=
  ∀ result, d.client.exec (api mmap) call = some result → ¬ Overlaps result.1 result.2 old

instance (mmap : Mmap) (old : Nat × Nat) (d : Dangling) (call : Call) :
    Decidable (d.Spares mmap old call) :=
  match hexec : d.client.exec (api mmap) call with
  | none => .isTrue fun result heq => by simp [hexec] at heq
  | some result => decidable_of_iff (¬ Overlaps result.1 result.2 old)
      ⟨fun h result' heq => by
        rw [hexec] at heq
        exact Option.some.inj heq ▸ h, fun h => h result hexec⟩

end Dangling

section Step

variable {mmap : Mmap} {w w' : Client Unit} {call : Call} {q : Nat}

/-- The place `a` of a header is away from the blocks that the client holds. -/
def Away (w : Client Unit) (a : Nat) : Prop :=
  a + 4 < 2 ^ 64 ∧ ∀ ptr, w.Holds ptr → a + 4 < ptr ∨ ptr + w.chunk ptr ≤ a + 4

/-- The calls that give up a pointer. -/
theorem given_up {ptr : Nat} (hexec : w.exec (api mmap) call = some (w', q))
    (hheld : w.Holds ptr) (hgone : ¬ w'.Holds ptr) :
    call = .free ptr ∨ ∃ size, call = .realloc ptr size ∧ (size = 0 ∨ q ≠ 0 ∧ q ≠ ptr) := by
  obtain ⟨n, hmem⟩ := hheld
  have hhold : ∀ {live : List (Nat × Nat)} {size : Nat}, (ptr, n) ∈ live →
      (ptr, n) ∈ Client.hold live q size := by
    intro live size hlive
    unfold Client.hold
    split
    · exact hlive
    · exact List.mem_cons_of_mem _ hlive
  have hdrop : ∀ given, ptr ≠ given → (ptr, n) ∈ Client.drop w.live given :=
    fun given hne => List.mem_filter.mpr ⟨hmem, by simpa using hne⟩
  cases call with
  | malloc size =>
      rw [Client.Holds, (Client.exec_malloc hexec).2] at hgone
      exact absurd ⟨n, hhold hmem⟩ hgone
  | calloc nmemb size =>
      rw [Client.Holds, (Client.exec_calloc hexec).2] at hgone
      exact absurd ⟨n, hhold hmem⟩ hgone
  | free given =>
      by_cases heq : ptr = given
      · exact Or.inl (by rw [heq])
      · rw [Client.Holds, (Client.exec_free hexec).2.1] at hgone
        exact absurd ⟨n, hdrop given heq⟩ hgone
  | realloc given size =>
      rw [Client.Holds, (Client.exec_realloc hexec).2] at hgone
      by_cases hfail : q = 0 ∧ size ≠ 0
      · rw [if_pos hfail] at hgone
        exact absurd ⟨n, hmem⟩ hgone
      · rw [if_neg hfail] at hgone
        by_cases heq : ptr = given
        · refine Or.inr ⟨size, by rw [heq], ?_⟩
          by_cases hzero : size = 0
          · exact Or.inl hzero
          · have hq : q ≠ 0 := fun hq => hfail ⟨hq, hzero⟩
            refine Or.inr ⟨hq, ?_⟩
            rintro rfl
            exact hgone ⟨size, Client.hold_self hq⟩
        · exact absurd ⟨n, hhold (hdrop given heq)⟩ hgone
  | write addr byte =>
      obtain ⟨rfl, _⟩ := Prod.mk.inj (Option.some.inj hexec)
      exact absurd ⟨n, hmem⟩ hgone
  | statReset =>
      obtain ⟨rfl, _⟩ := Prod.mk.inj (Option.some.inj hexec)
      exact absurd ⟨n, hmem⟩ hgone

/-- The header of a block returned is no place that is away from the blocks held. -/
theorem returned_away (hinv : Inv theList w) (hheld : q ≠ 0 → w.Holds q) :
    q % 16 = 0 ∧ ∀ a, Away w a → ptrAdd a 4 ≠ q := by
  by_cases hq : q = 0
  · refine ⟨by omega, fun a haway heq => ?_⟩
    have hlt := haway.1
    rw [ptrAdd_of_lt hlt] at heq
    omega
  · obtain ⟨hmod, _, _, hchunk⟩ := hinv.held_facts (hheld hq)
    refine ⟨hmod, fun a haway heq => ?_⟩
    rw [ptrAdd_of_lt haway.1] at heq
    have := haway.2 q (hheld hq)
    omega

/-- `my_realloc` of a live block raises no flag away from the blocks held after it, and if it
gives up the block, that flag is clear. -/
theorem realloc_quiet (hsound : mmap.Sound) {L : Layout Unit} {c : Block} {size : Nat}
    (h : Represents theList w.heap L) (hc : c ∈ Layout.usedBlocks L.blocks)
    (hsafe : Safe mmap w.heap (.realloc c.payload size)) (hinv' : Inv theList w')
    (hreturned : q ≠ 0 → (q, size) ∈ w'.live)
    (hcall : myRealloc mmap w.heap c.payload size = some (w'.heap, q)) :
    Quiet (Away w') w.heap.mem w'.heap.mem ∧
      (size = 0 ∨ q ≠ 0 ∧ q ≠ c.payload → (w'.heap.mem c.addr).toNat % 2 = 0) := by
  have hptr := h.payload_ne_zero hc
  obtain ⟨hq, hnew⟩ := returned_away hinv' fun hq => ⟨size, hreturned hq⟩
  by_cases hzero : size = 0
  · rw [myRealloc, if_neg hptr, if_pos hzero] at hcall
    obtain ⟨s', hfree, hresult⟩ := Option.bind_eq_some_iff.mp hcall
    obtain ⟨rfl, _⟩ := Prod.mk.inj (Option.some.inj hresult)
    obtain ⟨hquiet, hclear⟩ := myFree_quiet (Away w') h hc hfree
    exact ⟨hquiet, fun _ => hclear⟩
  · have hsmall := hsafe.2 c.payload size rfl hptr
    obtain ⟨_, hmod, _, hbound, hlt⟩ := reallocSize_rounds hsmall
    -- A block that moves does so because it is smaller than the request.
    have hcopied : moves w.heap c.payload (reallocSize size) = true →
        ∀ a, Away w' a → q ≠ 0 → a < q ∨ q + (c.size - 8) ≤ a := by
      intro hmoves a haway hq
      obtain ⟨hrow, hused⟩ := Layout.mem_usedBlocks.mp hc
      obtain ⟨pre, post, hblocks⟩ := List.append_of_mem hrow
      obtain ⟨hgrow, _⟩ := (moves_iff h hblocks hused).mp hmoves
      have hmod' := c.size_mod
      have hroom := hinv'.held_room (hreturned hq)
      have hapart := haway.2 q ⟨size, hreturned hq⟩
      omega
    rw [myRealloc, if_neg hptr, if_neg hzero] at hcall
    obtain ⟨hquiet, hclear⟩ := resizeBlock_quiet h hc hsound hmod hlt
      (fun hmoves => (hsafe.1 _ (by simp [request, hptr, hzero, hmoves])).2) hcall hq hnew hcopied
    refine ⟨hquiet, fun hgone => ?_⟩
    obtain ⟨hq, hne⟩ := hgone.resolve_left hzero
    exact hclear hq hne

/-- An admitted call raises no flag away from the blocks held after it. -/
theorem exec_quiet (hsound : mmap.Sound) (hinv : Inv theList w) (hadmits : Admits mmap w call)
    (hexec : w.exec (api mmap) call = some (w', q)) :
    Quiet (Away w') w.heap.mem w'.heap.mem := by
  obtain ⟨hallows, hsafe⟩ := hadmits.safe
  have hinv' := (contract hsound).keeps hinv hallows hsafe (Client.step_of_exec hexec)
  obtain ⟨hreturned, hothers⟩ := (contract hsound).leaves hinv hallows hsafe hexec
  obtain ⟨hq, hnew⟩ := returned_away hinv' fun hq => ⟨_, hreturned hq⟩
  obtain ⟨L, h, howns⟩ := id hinv
  have hplaced := h.listPlaced
  cases call with
  | malloc size =>
      have hcall : myMalloc mmap w.heap size = some (w'.heap, q) := (Client.exec_malloc hexec).1
      exact mallocWith_quiet hcall (hplaced ()) hq hnew
  | calloc nmemb size =>
      have hcall : myCalloc mmap w.heap nmemb size = some (w'.heap, q) :=
        (Client.exec_calloc hexec).1
      exact callocWith_quiet hcall hplaced hq hnew
  | free ptr =>
      have hcall : myFree w.heap ptr = some w'.heap := (Client.exec_free hexec).1
      rcases howns.owned hallows with rfl | ⟨c, hc, rfl⟩
      · rw [myFree, if_pos rfl] at hcall
        rw [← Option.some.inj hcall]
        exact .refl _ _
      · exact (myFree_quiet (Away w') h hc hcall).1
  | realloc ptr size =>
      have hcall : myRealloc mmap w.heap ptr size = some (w'.heap, q) :=
        (Client.exec_realloc hexec).1
      rcases howns.owned hallows.1 with rfl | ⟨c, hc, rfl⟩
      · rw [myRealloc, if_pos rfl] at hcall
        exact mallocWith_quiet hcall (hplaced ()) hq hnew
      · exact (realloc_quiet hsound h hc hsafe hinv' hreturned hcall).1
  | write addr byte =>
      obtain ⟨rfl, rfl⟩ := Prod.mk.inj (Option.some.inj hexec)
      obtain ⟨ptr, hheld, hlo, hhi⟩ := hallows
      intro a hmod haway heven
      have hne : a ≠ addr := by
        obtain ⟨n, hmem⟩ := id hheld
        have hnull : ptr ≠ 0 := fun heq => hinv'.null_not_held ⟨n, heq ▸ hmem⟩
        obtain ⟨_, hsame⟩ := hothers (ptr, n) hmem hnull
        change _ = w.chunk ptr at hsame
        have hapart := haway.2 ptr ⟨n, hmem⟩
        obtain ⟨halign, _⟩ := hinv.held_facts hheld
        rw [hsame] at hapart
        omega
      change (Function.update w.heap.mem addr byte a).toNat % 2 = 0
      rw [Function.update_of_ne hne]
      exact heven
  | statReset =>
      obtain ⟨rfl, rfl⟩ := Prod.mk.inj (Option.some.inj hexec)
      exact .refl _ _

/-- The header of a block that an admitted call gives up has a clear flag. -/
theorem given_up_clear (hsound : mmap.Sound) (hinv : Inv theList w)
    (hadmits : Admits mmap w call) (hexec : w.exec (api mmap) call = some (w', q)) {ptr : Nat}
    (hheld : w.Holds ptr) (hgone : ¬ w'.Holds ptr) :
    (w'.heap.mem (ptr - 4)).toNat % 2 = 0 := by
  obtain ⟨hallows, hsafe⟩ := hadmits.safe
  have hinv' := (contract hsound).keeps hinv hallows hsafe (Client.step_of_exec hexec)
  obtain ⟨hreturned, _⟩ := (contract hsound).leaves hinv hallows hsafe hexec
  obtain ⟨L, h, howns⟩ := hinv
  obtain ⟨n, hmem⟩ := id hheld
  obtain ⟨c, hc, rfl, _⟩ := howns.block_of_mem hmem
  rcases given_up hexec hheld hgone with rfl | ⟨size, rfl, hgiven⟩
  · exact (myFree_quiet (Away w') h hc (Client.exec_free hexec).1).2
  · exact (realloc_quiet hsound h hc hsafe hinv' hreturned (Client.exec_realloc hexec).1).2 hgiven

/-- An old block that overlaps none of those the client holds, and whose header has a clear
flag. -/
structure Buried (w : Client Unit) (old : Nat × Nat) : Prop where
  aligned : old.1 % 16 = 0
  low : 4 ≤ old.1
  high : old.1 < 2 ^ 64
  pos : 0 < old.2
  apart : ∀ ptr, w.Holds ptr → old.1 + old.2 ≤ ptr ∨ ptr + w.chunk ptr ≤ old.1
  clear : (w.heap.mem (old.1 - 4)).toNat % 2 = 0

variable {old : Nat × Nat}

/-- The guard of `my_free` sees the clear flag. -/
theorem Buried.myFree_same (h : Buried w old) : myFree w.heap old.1 = some w.heap := by
  have hlow := h.low
  have hptr : old.1 ≠ 0 := by omega
  have hheader : ptrSub old.1 4 = old.1 - 4 := ptrSub_of_le h.low h.high
  have hflag : load w.heap.mem (old.1 - 4) 4 % 2 = 0 := (load_flag _ _).trans h.clear
  simp only [myFree, hptr, ↓reduceIte, hheader, hflag]

theorem Buried.not_held (h : Buried w old) (hinv : Inv theList w) : ¬ w.Holds old.1 := by
  intro hheld
  obtain ⟨_, _, _, hchunk⟩ := hinv.held_facts hheld
  have hpos := h.pos
  have := h.apart old.1 hheld
  omega

/-- Old blocks are apart from the block returned, and from the others as they were before. -/
theorem apart_after {size : Nat} (hleaves : Leaves w w' size q) (hinv' : Inv theList w')
    (hspared : ¬ Overlaps w' q old)
    (hbefore : ∀ ptr, w.Holds ptr → w'.Holds ptr →
      old.1 + old.2 ≤ ptr ∨ ptr + w.chunk ptr ≤ old.1) :
    ∀ ptr, w'.Holds ptr → old.1 + old.2 ≤ ptr ∨ ptr + w'.chunk ptr ≤ old.1 := by
  intro ptr hheld
  by_cases hq : ptr = q
  · have hnull : ptr ≠ 0 := fun heq => hinv'.null_not_held (heq ▸ hheld)
    subst hq
    unfold Overlaps at hspared
    by_contra hoverlap
    exact hspared ⟨hnull, by omega, by omega⟩
  · obtain ⟨n, hmem⟩ := id hheld
    obtain ⟨hmem', hsame⟩ := hleaves.others (ptr, n) hmem hq
    change w'.chunk ptr = w.chunk ptr at hsame
    rw [hsame]
    exact hbefore ptr ⟨n, hmem'⟩ hheld

section Admitted

variable (hsound : mmap.Sound) (hinv : Inv theList w) (hadmits : Admits mmap w call)
  (hexec : w.exec (api mmap) call = some (w', q)) (hspared : ¬ Overlaps w' q old)

include hsound hinv hadmits hexec hspared

/-- What is buried stays so as long as nothing is put on top of it. -/
theorem Buried.kept (h : Buried w old) : Buried w' old := by
  obtain ⟨hallows, hsafe⟩ := hadmits.safe
  have hinv' := (contract hsound).keeps hinv hallows hsafe (Client.step_of_exec hexec)
  have hleaves := (contract hsound).leaves hinv hallows hsafe hexec
  have hapart := apart_after hleaves hinv' hspared fun ptr hheld _ => h.apart ptr hheld
  refine ⟨h.aligned, h.low, h.high, h.pos, hapart, ?_⟩
  have haligned := h.aligned
  have hlow := h.low
  have hhigh := h.high
  have hpos := h.pos
  apply exec_quiet hsound hinv hadmits hexec (old.1 - 4) (by omega) _ h.clear
  refine ⟨by omega, fun ptr hheld => ?_⟩
  have := hapart ptr hheld
  omega

/-- A block that is given up is buried. -/
theorem Buried.of_given_up (hheld : w.Holds old.1) (hsize : old.2 = w.chunk old.1)
    (hgone : ¬ w'.Holds old.1) : Buried w' old := by
  obtain ⟨hallows, hsafe⟩ := hadmits.safe
  have hinv' := (contract hsound).keeps hinv hallows hsafe (Client.step_of_exec hexec)
  have hleaves := (contract hsound).leaves hinv hallows hsafe hexec
  obtain ⟨hmod, hlow, hhigh, hchunk⟩ := hinv.held_facts hheld
  refine ⟨hmod, hlow, hhigh, by omega, ?_, given_up_clear hsound hinv hadmits hexec hheld hgone⟩
  apply apart_after hleaves hinv' hspared
  intro ptr hptr hptr'
  rw [hsize]
  apply hinv.held_apart hheld hptr
  rintro rfl
  exact hgone hptr'

end Admitted

end Step

namespace Dangling

variable {mmap : Mmap} {d d' : Dangling} {call : Call}

/-- A block recorded after a step was recorded before it or has been given up by it. -/
theorem mem_freed {result : Client Unit × Nat} {old : Nat × Nat}
    (hmem : old ∈ (givenUp d.client result.1 ++ d.freed).filter fun old =>
      ¬ Overlaps result.1 result.2 old) :
    ¬ Overlaps result.1 result.2 old ∧
      (old ∈ d.freed ∨ d.client.Holds old.1 ∧ old.2 = d.client.chunk old.1 ∧
        ¬ result.1.Holds old.1) := by
  obtain ⟨hmem, hspared⟩ := List.mem_filter.mp hmem
  refine ⟨of_decide_eq_true hspared, ?_⟩
  rcases List.mem_append.mp hmem with hgiven | hfreed
  · obtain ⟨⟨ptr, n⟩, hentry, rfl⟩ := List.mem_map.mp hgiven
    obtain ⟨hlive, hgone⟩ := List.mem_filter.mp hentry
    exact Or.inr ⟨⟨n, hlive⟩, rfl, of_decide_eq_true hgone⟩
  · exact Or.inl hfreed

/-- A call that passes a pointer already freed, other than to resize it, does nothing. -/
theorem repeats_same {result : Client Unit × Nat} (hinv : Inv theList d.client)
    (hburied : ∀ old ∈ d.freed, Buried d.client old) (hrepeats : d.Repeats 0 call)
    (hexec : d.client.exec (api mmap) call = some result) : result = (d.client, 0) := by
  have hdrop : ∀ old ∈ d.freed, Client.drop d.client.live old.1 = d.client.live := by
    intro old hold
    apply List.filter_eq_self.mpr
    rintro ⟨ptr, n⟩ hentry
    have hne : ptr ≠ old.1 := fun heq => (hburied old hold).not_held hinv ⟨n, heq ▸ hentry⟩
    simpa using hne
  cases call with
  | free ptr =>
      obtain ⟨old, hold, rfl⟩ := hrepeats
      have hfree := (hburied old hold).myFree_same
      simp only [Client.exec, api, hfree, hdrop old hold] at hexec
      exact (Option.some.inj hexec).symm
  | realloc ptr size =>
      obtain ⟨⟨old, hold, rfl⟩, hsize⟩ := hrepeats
      obtain rfl := Nat.le_zero.mp hsize
      have hfree := (hburied old hold).myFree_same
      have hlow := (hburied old hold).low
      have hptr : old.1 ≠ 0 := by omega
      have hcall : myRealloc mmap d.client.heap old.1 0 = some (d.client.heap, 0) := by
        rw [myRealloc, if_neg hptr, if_pos rfl, hfree]
        rfl
      simp only [Client.exec, api, hcall, hdrop old hold] at hexec
      exact (Option.some.inj hexec).symm
  | malloc size => exact hrepeats.elim
  | calloc nmemb size => exact hrepeats.elim
  | write addr byte => exact hrepeats.elim
  | statReset => exact hrepeats.elim

/-- In every run, the pointers that are kept stay buried. -/
theorem reach_buried (hsound : mmap.Sound)
    (hreach : Runs.Reach (step mmap)
      (fun d call => Admits mmap d.client call ∨ d.Repeats 0 call) initial d) :
    Inv theList d.client ∧ ∀ old ∈ d.freed, Buried d.client old := by
  induction hreach with
  | start => exact ⟨inv_initial theList, fun old hold => by simp [initial] at hold⟩
  | @next d _ call _ hok hstep ih =>
      obtain ⟨hinv, hburied⟩ := ih
      obtain ⟨result, hexec, rfl⟩ := Option.map_eq_some_iff.mp hstep
      rcases hok with hadmits | hrepeats
      · obtain ⟨hallows, hsafe⟩ := hadmits.safe
        refine ⟨(contract hsound).keeps hinv hallows hsafe (Client.step_of_exec hexec), ?_⟩
        intro old hold
        obtain ⟨hspared, hcase⟩ := mem_freed hold
        rcases hcase with hfreed | ⟨hheld, hsize, hgone⟩
        · exact (hburied old hfreed).kept hsound hinv hadmits hexec hspared
        · exact Buried.of_given_up hsound hinv hadmits hexec hspared hheld hsize hgone
      · obtain rfl := repeats_same hinv hburied hrepeats hexec
        refine ⟨hinv, fun old hold => ?_⟩
        obtain ⟨_, hcase⟩ := mem_freed hold
        rcases hcase with hfreed | ⟨hheld, _, hgone⟩
        · exact hburied old hfreed
        · exact absurd hheld hgone

/-- A block stays recorded over a call that spares it. -/
theorem freed_of_spares {old : Nat × Nat} (hmem : old ∈ d.freed)
    (hspares : d.Spares mmap old call) (hstep : step mmap d call = some d') :
    old ∈ d'.freed := by
  obtain ⟨result, hexec, rfl⟩ := Option.map_eq_some_iff.mp hstep
  apply List.mem_filter.mpr
  exact ⟨List.mem_append_right _ hmem, decide_eq_true (hspares result hexec)⟩

/-- A live pointer that is freed is recorded. -/
theorem freed_of_free {ptr : Nat} (hheld : d.client.Holds ptr)
    (hstep : step mmap d (.free ptr) = some d') : (ptr, d.client.chunk ptr) ∈ d'.freed := by
  obtain ⟨⟨w', q⟩, hexec, rfl⟩ := Option.map_eq_some_iff.mp hstep
  obtain ⟨_, hlive, rfl⟩ := Client.exec_free hexec
  obtain ⟨n, hmem⟩ := hheld
  have hgone : ¬ w'.Holds ptr := by
    rintro ⟨n', hmem'⟩
    rw [hlive] at hmem'
    simp [Client.drop] at hmem'
  have hspared : ¬ Overlaps w' 0 (ptr, d.client.chunk ptr) := fun hyes => hyes.1 rfl
  apply List.mem_filter.mpr
  refine ⟨List.mem_append_left _ ?_, decide_eq_true hspared⟩
  exact List.mem_map.mpr ⟨(ptr, n), List.mem_filter.mpr ⟨hmem, decide_eq_true hgone⟩, rfl⟩

end Dangling

/-- In a state that admitted calls lead to, let a live pointer be freed, and let admitted
calls follow that return no block over the old one; among all of them may be calls that free
pointers once more under the same condition.  Then freeing the pointer once more leaves
everything as it is. -/
theorem double_free_guard {mmap : Mmap} (hsound : mmap.Sound) {d d₁ d₂ : Dangling}
    (hreach : Runs.Reach (Dangling.step mmap)
      (fun d call => Admits mmap d.client call ∨ d.Repeats 0 call) Dangling.initial d)
    {ptr : Nat} (hheld : d.client.Holds ptr)
    (hfree : Dangling.step mmap d (.free ptr) = some d₁)
    (hthen : Runs.Reach (Dangling.step mmap)
      (fun d' call => (Admits mmap d'.client call ∨ d'.Repeats 0 call) ∧
        d'.Spares mmap (ptr, d.client.chunk ptr) call) d₁ d₂) :
    myFree d₂.client.heap ptr = some d₂.client.heap := by
  have hadmits : Admits mmap d.client (.free ptr) :=
    ⟨⟨Or.inr hheld, trivial⟩, fun n hn => by simp [request] at hn⟩
  have hlast : Runs.Reach (Dangling.step mmap)
      (fun d call => Admits mmap d.client call ∨ d.Repeats 0 call) Dangling.initial d₂ ∧
      (ptr, d.client.chunk ptr) ∈ d₂.freed := by
    induction hthen with
    | start => exact ⟨.next hreach (Or.inl hadmits) hfree, Dangling.freed_of_free hheld hfree⟩
    | next _ hok hstep ih =>
        obtain ⟨hreach', hmem⟩ := ih
        exact ⟨.next hreach' hok.1 hstep, Dangling.freed_of_spares hmem hok.2 hstep⟩
  obtain ⟨_, hburied⟩ := Dangling.reach_buried hsound hlast.1
  exact (hburied _ hlast.2).myFree_same

/-- The block between two others is merged with both.  The next request is cut off in front of
it, so that the rest starts where its header was. -/
theorem double_free_guard_example :
    ∃ d d₁ d₂, Runs.run (Dangling.step lowRegion) Dangling.initial
        [.malloc 8, .malloc 8, .malloc 8, .free 4112] = some d ∧
      Dangling.step lowRegion d (.free 4128) = some d₁ ∧
      Runs.run (Dangling.step lowRegion) d₁ [.free 4144, .free 4128, .malloc 8] = some d₂ ∧
      myFree d₂.client.heap 4128 = some d₂.client.heap := by
  have hfacts : (Runs.run (Dangling.step lowRegion) Dangling.initial
      [.malloc 8, .malloc 8, .malloc 8, .free 4112]).map (fun d : Dangling =>
        (decide (d.client.Holds 4128),
          (Dangling.step lowRegion d (.free 4128)).map fun d₁ =>
            (decide (Runs.RunOk (Dangling.step lowRegion)
                (fun d' call => (Admits lowRegion d'.client call ∨ d'.Repeats 0 call) ∧
                  d'.Spares lowRegion (4128, d.client.chunk 4128) call) d₁
                [.free 4144, .free 4128, .malloc 8]),
              (Runs.run (Dangling.step lowRegion) d₁
                [.free 4144, .free 4128, .malloc 8]).isSome))) =
      some (true, some (true, true)) := by decide +kernel
  obtain ⟨d, hrun, hd⟩ := Option.map_eq_some_iff.mp hfacts
  obtain ⟨hheld, hstep⟩ := Prod.mk.inj hd
  obtain ⟨d₁, hfree, hd₁⟩ := Option.map_eq_some_iff.mp hstep
  obtain ⟨hok, hsome⟩ := Prod.mk.inj hd₁
  obtain ⟨d₂, hrun₂⟩ := Option.isSome_iff_exists.mp hsome
  refine ⟨d, d₁, d₂, hrun, hfree, hrun₂, ?_⟩
  exact double_free_guard lowRegion_sound (.of_run .start (by decide +kernel) hrun)
    (of_decide_eq_true hheld) hfree (.of_run .start (of_decide_eq_true hok) hrun₂)

/-- The calls that the guard is meant for: those of a well-behaved client, and any that is
given a pointer already freed. -/
def Dangling.Disciplined (d : Dangling) (call : Call) : Prop :=
  d.client.Disciplined (2 ^ 63) (2 ^ 32 - 24) call ∨ d.Repeats (2 ^ 32 - 24) call

instance (d : Dangling) (call : Call) : Decidable (d.Disciplined call) :=
  inferInstanceAs (Decidable (_ ∨ _))

/-- After the calls `before` the live pointer `ptr` is freed, the calls `after` spare its old
block, and freeing it once more does something. -/
def FreesTwice (mmap : Mmap) (before : List Call) (ptr : Nat) (after : List Call) : Prop :=
  ∃ d d₁ d₂, Runs.run (Dangling.step mmap) Dangling.initial before = some d ∧
    Runs.Reach (Dangling.step mmap) Dangling.Disciplined Dangling.initial d ∧
    d.client.Holds ptr ∧ Dangling.step mmap d (.free ptr) = some d₁ ∧
    Runs.run (Dangling.step mmap) d₁ after = some d₂ ∧
    Runs.Reach (Dangling.step mmap)
      (fun d' call => d'.Disciplined call ∧ d'.Spares mmap (ptr, d.client.chunk ptr) call)
      d₁ d₂ ∧
    myFree d₂.client.heap ptr ≠ some d₂.client.heap

/-- It is enough that the second call changes the header. -/
theorem FreesTwice.of_facts {mmap : Mmap} {before after : List Call} {ptr : Nat}
    (hok : Runs.RunOk (Dangling.step mmap) Dangling.Disciplined Dangling.initial before)
    (hfacts : (Runs.run (Dangling.step mmap) Dangling.initial before).map (fun d : Dangling =>
      (decide (d.client.Holds ptr),
        (Dangling.step mmap d (.free ptr)).map fun d₁ =>
          (decide (Runs.RunOk (Dangling.step mmap)
              (fun d' call => d'.Disciplined call ∧
                d'.Spares mmap (ptr, d.client.chunk ptr) call) d₁ after),
            (Runs.run (Dangling.step mmap) d₁ after).map fun d₂ =>
              decide ((myFree d₂.client.heap ptr).map (fun s => s.mem (ptr - 4)) =
                some (d₂.client.heap.mem (ptr - 4)))))) =
      some (true, some (true, some false))) : FreesTwice mmap before ptr after := by
  obtain ⟨d, hrun, hd⟩ := Option.map_eq_some_iff.mp hfacts
  obtain ⟨hheld, hstep⟩ := Prod.mk.inj hd
  obtain ⟨d₁, hfree, hd₁⟩ := Option.map_eq_some_iff.mp hstep
  obtain ⟨hok', hlast⟩ := Prod.mk.inj hd₁
  obtain ⟨d₂, hrun₂, hchanged⟩ := Option.map_eq_some_iff.mp hlast
  refine ⟨d, d₁, d₂, hrun, .of_run .start hok hrun, of_decide_eq_true hheld, hfree, hrun₂,
    .of_run .start (of_decide_eq_true hok') hrun₂, fun hsame => ?_⟩
  apply of_decide_eq_false hchanged
  rw [hsame]
  rfl

/-- The word in front of the block at 4144 lies in the gap behind the misplaced first one and
is 0, so `my_free` merges the block with itself.  It comes back with twice its size, over the
block at 4160, and the client writes to its payload where that header is. -/
theorem double_free_guard_fails : lateRegion.Sound ∧
    FreesTwice lateRegion [.malloc 0, .malloc 0, .malloc 0, .free 4144, .malloc 16] 4160
      [.write 4156 1] :=
  ⟨lateRegion_sound, .of_facts (by decide +kernel) (by decide +kernel)⟩

end FirstFit

end AllocSitter
