/-
Allocations that fail.  Where the heap has a block, a failed request leaves it as it
is, and `check_invariant` passes on it, reading nothing but blocks.  Where there is
none yet, the failure still assigns `heap_hi`, and `heap_lo` stays `NULL`.
-/
import AllocSitter.Accounting
import AllocSitter.CheckInvariant
import AllocSitter.ResizeArithmetic

namespace AllocSitter

open ByteMemory LinkedChain Tiling

variable {ι : Type}

section Passes

variable {read : Reader} {m : Memory} {b : Block} {blocks : List Block} {heapHi : Nat}

/-- Words inside the blocks can be read. -/
def Covers (read : Reader) (m : Memory) (blocks : List Block) : Prop :=
  ∀ b ∈ blocks, ∀ addr width, b.addr ≤ addr → addr + width ≤ b.addr + b.size →
    read addr width = .ok (load m addr width)

theorem readWithin_covers (htagged : ∀ b ∈ blocks, b.Tagged m) :
    Covers (readWithin m (blocks.map Block.addr)) m blocks := by
  intro b hb addr width hlo hhi
  unfold readWithin
  rw [if_pos]
  refine ⟨b.addr, List.mem_map_of_mem hb, hlo, ?_⟩
  rw [show blockSize m b.addr = b.size from (htagged b hb).tagSize_head]
  exact hhi

theorem checkBlock_passes (hcovers : Covers read m blocks) (hb : b ∈ blocks)
    (htagged : b.Tagged m) (hfit : b.addr + b.size ≤ heapHi) (hhi : heapHi < 2 ^ 64) :
    checkBlock read heapHi b.addr = .ok (load m b.addr 4) := by
  have hge := b.size_ge
  have hnext : ptrAdd b.addr b.size = b.addr + b.size := ptrAdd_of_lt (by omega)
  have hfoot : ptrSub (b.addr + b.size) 4 = b.addr + b.size - 4 :=
    ptrSub_of_le (by omega) (by omega)
  have hheader := hcovers b hb b.addr 4 (Nat.le_refl _) (by omega)
  have hfooter := hcovers b hb (b.addr + b.size - 4) 4 (by omega) (by omega)
  simp only [checkBlock, hheader, htagged.tagSize_head, hnext, hfoot, hfooter,
    htagged.tagSize_tail, require, b.size_mod, hge, hfit, bind, Except.bind, ↓reduceIte, pure,
    Except.pure]

theorem collect_free {fuel p used tag : Nat} {free : List Nat} (hp : p < heapHi)
    (hblock : checkBlock read heapHi p = .ok tag) (hclear : tag % 2 = 0)
    (hroom : free.length < maxNodes) :
    collect read heapHi (fuel + 1) p free used =
      collect read heapHi fuel (ptrAdd p (tagSize tag)) (free ++ [p]) used := by
  simp only [collect, hp, ↓reduceIte, hblock, bind, Except.bind, hclear, require, hroom]

theorem collect_used {fuel p used tag : Nat} {free : List Nat} (hp : p < heapHi)
    (hblock : checkBlock read heapHi p = .ok tag) (hset : tag % 2 = 1) :
    collect read heapHi (fuel + 1) p free used =
      collect read heapHi fuel (ptrAdd p (tagSize tag)) free (ptrAdd used (tagSize tag)) := by
  have hset' : ¬ tag % 2 = 0 := by omega
  simp only [collect, hp, ↓reduceIte, hblock, bind, Except.bind, hset']

/-- The walk over the blocks of a heap collects what it should. -/
theorem collect_passes {fuel lo used : Nat} {free : List Nat}
    (hcovers : Covers read m blocks) (htagged : ∀ b ∈ blocks, b.Tagged m)
    (htiles : Tiles Block.addr Block.size lo blocks heapHi) (hhi : heapHi < 2 ^ 64)
    (hused : used + (heapHi - lo) < 2 ^ 64)
    (hroom : free.length + Layout.freeCount blocks ≤ maxNodes)
    (hfuel : blocks.length < fuel) :
    collect read heapHi fuel lo free used =
      .ok (free ++ (blocks.filter fun b => !b.used).map Block.addr,
        used + Layout.bytes (Layout.usedBlocks blocks)) := by
  induction blocks generalizing fuel lo used free with
  | nil =>
      obtain ⟨fuel, rfl⟩ : ∃ n, fuel = n + 1 := ⟨fuel - 1, by simp at hfuel; omega⟩
      have hend : lo = heapHi := htiles
      simp [collect, hend, Layout.usedBlocks, Layout.bytes, pure, Except.pure]
  | cons b rest ih =>
      obtain ⟨fuel, rfl⟩ : ∃ n, fuel = n + 1 := ⟨fuel - 1, by simp at hfuel; omega⟩
      obtain ⟨rfl, htiles⟩ := htiles
      have hle := htiles.le
      have hge := b.size_ge
      have htag := htagged b List.mem_cons_self
      have hblock := checkBlock_passes hcovers List.mem_cons_self htag hle hhi
      have hnext : ptrAdd b.addr b.size = b.addr + b.size := ptrAdd_of_lt (by omega)
      have hflag := htag.flag_head
      have hcovers' : Covers read m rest := fun c hc => hcovers c (List.mem_cons_of_mem b hc)
      have htagged' : ∀ c ∈ rest, c.Tagged m :=
        fun c hc => htagged c (List.mem_cons_of_mem b hc)
      have hfuel' : rest.length < fuel := by simpa using hfuel
      cases hb : b.used with
      | false =>
          have hcount : Layout.freeCount (b :: rest) = Layout.freeCount rest + 1 := by
            simp [Layout.freeCount, hb]
          rw [hb] at hflag
          rw [collect_free (by omega) hblock hflag (by omega), htag.tagSize_head, hnext,
            ih hcovers' htagged' htiles (by omega) (by simp; omega) hfuel']
          simp [Layout.usedBlocks, hb]
      | true =>
          have hcount : Layout.freeCount (b :: rest) = Layout.freeCount rest := by
            simp [Layout.freeCount, hb]
          have hadd : ptrAdd used b.size = used + b.size := ptrAdd_of_lt (by omega)
          rw [hb] at hflag
          rw [collect_used (by omega) hblock hflag, htag.tagSize_head, hnext, hadd,
            ih hcovers' htagged' htiles (by omega) (by omega) hfuel']
          simp [Layout.usedBlocks, Layout.bytes, hb, Nat.add_assoc]

/-- The walk over a list of collected blocks counts them. -/
theorem crossCheck_passes {s : Globals ι} {ownBin : Nat → Check Unit} {free nodes : List Nat}
    {fuel p count : Nat} (hcovers : Covers read m blocks)
    (hlinked : Linked (nextFree m) 0 p nodes)
    (hnodes : ∀ node ∈ nodes, node ∈ free ∧ ownBin node = .ok () ∧ s.heapLo ≤ node ∧
      node ≤ s.heapHi ∧ node + 4 < 2 ^ 64 ∧ load m node 4 % 2 = 0 ∧
      ∃ b ∈ blocks, b.addr = node)
    (hroom : count + nodes.length ≤ maxNodes) (hfuel : nodes.length < fuel) :
    crossCheck read s free ownBin fuel p count = .ok (count + nodes.length) := by
  induction nodes generalizing fuel p count with
  | nil =>
      obtain ⟨fuel, rfl⟩ : ∃ n, fuel = n + 1 := ⟨fuel - 1, by simp at hfuel; omega⟩
      simp [crossCheck, linked_nil.mp hlinked, pure, Except.pure]
  | cons node rest ih =>
      obtain ⟨fuel, rfl⟩ : ∃ n, fuel = n + 1 := ⟨fuel - 1, by simp at hfuel; omega⟩
      obtain ⟨rfl, hnull, hlinked⟩ := linked_cons.mp hlinked
      obtain ⟨hfound, hown, hlo, hhi, hlt, hclear, b, hb, rfl⟩ := hnodes p List.mem_cons_self
      rw [List.length_cons] at hroom hfuel
      have hge := b.size_ge
      have hcount : count < maxNodes := by omega
      have hheader := hcovers b hb b.addr 4 (Nat.le_refl _) (by omega)
      have hlink := hcovers b hb (b.addr + 4) 8 (by omega) (by omega)
      have hnext : load m (b.addr + 4) 8 = nextFree m b.addr := by
        unfold nextFree
        rw [ptrAdd_of_lt hlt]
      have hnode : checkNode read s free ownBin b.addr count = .ok (nextFree m b.addr) := by
        simp only [checkNode, hheader, require, hclear, hlo, hhi, and_self, hcount, hown, hfound,
          ptrAdd_of_lt hlt, hlink, hnext, bind, Except.bind, ↓reduceIte]
      unfold crossCheck
      rw [if_neg hnull, hnode]
      change crossCheck read s free ownBin fuel (nextFree m b.addr) (count + 1) = _
      rw [ih hlinked (fun other hother => hnodes other (List.mem_cons_of_mem _ hother))
        (by omega) (by omega), List.length_cons, Nat.add_assoc, Nat.add_comm 1]

/-- The walks over the lists of a heap count its free blocks. -/
theorem crossChecks_pass {s : Globals ι} {own : ι → Nat → Check Unit} {free : List Nat}
    {bins : List ι} {nodes : ι → List Nat} {fuel count : Nat} (hcovers : Covers read m blocks)
    (hlinked : ∀ i, Linked (nextFree m) 0 (s.freeHead i) (nodes i))
    (hnodes : ∀ i, ∀ node ∈ nodes i, node ∈ free ∧ own i node = .ok () ∧ s.heapLo ≤ node ∧
      node ≤ s.heapHi ∧ node + 4 < 2 ^ 64 ∧ load m node 4 % 2 = 0 ∧
      ∃ b ∈ blocks, b.addr = node)
    (hroom : count + (bins.map fun i => (nodes i).length).sum ≤ maxNodes)
    (hfuel : ∀ i, (nodes i).length < fuel) :
    bins.foldlM (fun count bin =>
        crossCheck read s free (own bin) fuel (s.freeHead bin) count) count =
      .ok (count + (bins.map fun i => (nodes i).length).sum) := by
  induction bins generalizing count with
  | nil => rfl
  | cons bin rest ih =>
      rw [List.map_cons, List.sum_cons] at hroom ⊢
      rw [List.foldlM_cons, crossCheck_passes hcovers (hlinked bin) (hnodes bin) (by omega)
        (hfuel bin)]
      change rest.foldlM _ (count + (nodes bin).length) = _
      rw [ih (by omega), Nat.add_assoc]

/-- A heap with a block passes, and nothing but blocks is read. -/
theorem checkWith_passes [DecidableEq ι] [Fintype ι] {binOf : Nat → ι} {s : Globals ι}
    {L : Layout ι} {bins : List ι} {ownBin : Reader → ι → Nat → Check Unit}
    {liveBytes : Nat → Check Unit} (h : Represents binOf s L) (hne : L.blocks ≠ [])
    (hcount : Layout.freeCount L.blocks ≤ maxNodes) (hbins : bins.Nodup)
    (hall : ∀ i, i ∈ bins)
    (hown : ∀ i, ∀ b ∈ L.lists i,
      ownBin (readWithin s.mem (L.blocks.map Block.addr)) i b.addr = .ok ())
    (hlive : liveBytes (Layout.bytes (Layout.usedBlocks L.blocks)) = .ok ()) :
    checkWith bins ownBin liveBytes (readWithin s.mem (L.blocks.map Block.addr))
      (L.blocks.length + 1) s = .ok () := by
  have hcovers := readWithin_covers h.threaded.tagged
  obtain ⟨_, htiles⟩ := h.arena.tiles hne
  have hbase := h.room.base_ne_zero hne
  have hcur := h.room.cur_lt hbase
  rw [← (h.arena.top hbase).1] at htiles hcur
  have hcollect : collect (readWithin s.mem (L.blocks.map Block.addr)) s.heapHi
      (L.blocks.length + 1) s.heapLo [] 0 = _ :=
    collect_passes hcovers h.threaded.tagged htiles hcur (by omega) (by simpa using hcount)
      (by omega)
  have hsum : (bins.map fun i => (L.chains i).length).sum = Layout.freeCount L.blocks := by
    rw [h.binned.freeCount_eq, ← List.sum_toFinset _ hbins]
    have huniv : bins.toFinset = Finset.univ :=
      Finset.eq_univ_iff_forall.mpr fun i => List.mem_toFinset.mpr (hall i)
    rw [huniv]
    simp [Layout.chains]
  have hfree : (L.blocks.filter fun b => !b.used).length = Layout.freeCount L.blocks :=
    List.countP_eq_length_filter.symm
  have hcross : bins.foldlM (fun count bin =>
      crossCheck (readWithin s.mem (L.blocks.map Block.addr)) s
        ((L.blocks.filter fun b => !b.used).map Block.addr)
        (ownBin (readWithin s.mem (L.blocks.map Block.addr)) bin) (L.blocks.length + 1)
        (s.freeHead bin) count) 0 = _ :=
    crossChecks_pass hcovers h.threaded.linked ?_ (by omega) ?_
  · rw [Nat.zero_add, hsum] at hcross
    rw [List.nil_append, Nat.zero_add] at hcollect
    simp only [checkWith, hcollect, hcross, hlive, require, List.length_map, hfree, h.length,
      bind, Except.bind, ↓reduceIte]
  · intro i node hnode
    obtain ⟨b, hb, rfl⟩ := List.mem_map.mp hnode
    obtain ⟨hrow, hclear, _⟩ := h.binned.mem_iff.mp hb
    obtain ⟨hlow, hhigh, _⟩ := h.room.bounds hrow
    have hge := b.size_ge
    have hbounds := htiles.spread.bounds hrow
    refine ⟨?_, hown i b hb, hbounds.1, by omega, by omega, ?_, b, hrow, rfl⟩
    · exact List.mem_map_of_mem (List.mem_filter.mpr ⟨hrow, by simp [hclear]⟩)
    · exact (h.threaded.tagged b hrow).clear_iff.mpr hclear
  · intro i
    have hle := h.binned.length_le i
    simp only [Layout.chains, List.length_map]
    omega

end Passes

section Refused

variable {mmap : Mmap} {s s₁ s₂ s₃ : Globals ι} {need cur hi : Nat}

/-- The state after a refused request: `heap_hi` has been assigned all the same. -/
theorem extendHeap_refused_state (account : Nat → AllocStat → AllocStat)
    (hfirst : arenaExtend mmap s 0 = (s₁, cur))
    (hsecond : arenaExtend mmap s₁ (ptrAdd need (ptrSub 12 cur % 16)) = (s₂, mapFailed))
    (hthird : arenaExtend mmap s₂ 0 = (s₃, hi)) :
    extendHeap account mmap s need = ({ s₃ with heapHi := hi }, 0) := by
  simp only [extendHeap, hfirst, hsecond, hthird, ↓reduceIte]

theorem arenaExtend_heapLo (mmap : Mmap) (s : Globals ι) (n : Nat) :
    (arenaExtend mmap s n).1.heapLo = s.heapLo := by
  unfold arenaExtend
  split
  · cases mmap s.mmapCalls with
    | none => rfl
    | some base =>
        dsimp only
        unfold moveBreak
        split
        · rfl
        · split <;> rfl
  · unfold moveBreak
    split
    · rfl
    · split <;> rfl

/-- A break that exists is neither at `NULL` nor on the last page. -/
def BreakPlaced (s : Globals ι) : Prop :=
  s.arenaBase ≠ 0 → 0 < s.arenaCur ∧ s.arenaCur + 4096 ≤ 2 ^ 64

/-- What `arena_extend` returns is its failure value or such a break, and a call that
asks for nothing or fails leaves one. -/
theorem arenaExtend_placed {n p : Nat} (hsound : mmap.Sound) (hplaced : BreakPlaced s)
    (h : arenaExtend mmap s n = (s₁, p)) :
    (p = mapFailed ∨ 0 < p ∧ p + 4096 ≤ 2 ^ 64) ∧
      (n = 0 ∨ p = mapFailed → BreakPlaced s₁) := by
  have hmove : ∀ {t : Globals ι}, 0 < t.arenaCur ∧ t.arenaCur + 4096 ≤ 2 ^ 64 →
      moveBreak t n = (s₁, p) →
      (p = mapFailed ∨ 0 < p ∧ p + 4096 ≤ 2 ^ 64) ∧
        (n = 0 ∨ p = mapFailed → BreakPlaced s₁) := by
    intro t ht heq
    unfold moveBreak at heq
    split at heq
    · obtain ⟨rfl, rfl⟩ := Prod.mk.inj heq
      exact ⟨Or.inr ht, fun _ _ => ht⟩
    · split at heq
      · obtain ⟨rfl, rfl⟩ := Prod.mk.inj heq
        exact ⟨Or.inl rfl, fun _ _ => ht⟩
      · next hn _ =>
          obtain ⟨rfl, rfl⟩ := Prod.mk.inj heq
          refine ⟨Or.inr ht, fun hcase => ?_⟩
          unfold mapFailed at hcase
          omega
  unfold arenaExtend at h
  split at h
  · next hbase =>
      cases hmap : mmap s.mmapCalls with
      | none =>
          rw [hmap] at h
          obtain ⟨rfl, rfl⟩ := Prod.mk.inj h
          exact ⟨Or.inl rfl, fun _ hne => absurd hbase hne⟩
      | some base =>
          rw [hmap] at h
          obtain ⟨_, hpage, hend⟩ := hsound _ _ hmap
          apply hmove _ h
          change 0 < base ∧ base + 4096 ≤ 2 ^ 64
          unfold arenaSize at hend
          omega
  · next hbase => exact hmove (hplaced hbase) h

variable {shape : Globals ι → List Block → Prop} [LawfulShape shape] [DecidableEq ι]
  {binOf : Nat → ι} {L : Layout ι} {account : Nat → AllocStat → AllocStat} {s' : Globals ι}

theorem RepresentsIn.breakPlaced (h : RepresentsIn shape binOf s L) : BreakPlaced s := by
  intro hbase
  have hpage := (h.room.region hbase).2.1
  have hlow := (h.room.top hbase).1
  exact ⟨by omega, h.cur_high⟩

/-- A request that the arena has refused: with a region nothing has changed but `heap_hi`,
which is not `NULL` in any case. -/
theorem extendHeap_null (hsound : mmap.Sound) (h : RepresentsIn shape binOf s L)
    (heq : extendHeap account mmap s need = (s', 0)) :
    (s.arenaBase ≠ 0 → s' = { s with heapHi := s.arenaCur }) ∧ s'.heapLo = s.heapLo ∧
      s'.heapHi ≠ 0 := by
  have hplaced := h.breakPlaced
  generalize hfirst : arenaExtend mmap s 0 = first
  obtain ⟨s₁, cur⟩ := first
  generalize hsecond : arenaExtend mmap s₁ (ptrAdd need (ptrSub 12 cur % 16)) = second
  obtain ⟨s₂, p⟩ := second
  generalize hthird : arenaExtend mmap s₂ 0 = third
  obtain ⟨s₃, hi⟩ := third
  have hplaced₁ := (arenaExtend_placed hsound hplaced hfirst).2 (Or.inl rfl)
  obtain ⟨hp, hplaced₂⟩ := arenaExtend_placed hsound hplaced₁ hsecond
  rcases hp with rfl | hgranted
  · rw [extendHeap_refused_state account hfirst hsecond hthird] at heq
    obtain ⟨rfl, _⟩ := Prod.mk.inj heq
    have hhi := (arenaExtend_placed hsound (hplaced₂ (Or.inr rfl)) hthird).1
    have hlo₁ := arenaExtend_heapLo mmap s 0
    have hlo₂ := arenaExtend_heapLo mmap s₁ (ptrAdd need (ptrSub 12 cur % 16))
    have hlo₃ := arenaExtend_heapLo mmap s₂ 0
    rw [hfirst] at hlo₁
    rw [hsecond] at hlo₂
    rw [hthird] at hlo₃
    refine ⟨fun hbase => ?_, hlo₃.trans (hlo₂.trans hlo₁), ?_⟩
    · -- With a region the three calls return the break, fail, and return the break.
      rw [arenaExtend_zero hbase] at hfirst
      obtain ⟨rfl, rfl⟩ := Prod.mk.inj hfirst
      have hsame : s₂ = s := by
        have hbreak := hplaced hbase
        simp only [arenaExtend, hbase, ↓reduceIte, moveBreak] at hsecond
        unfold mapFailed at hsecond
        split at hsecond
        · have hcur := congrArg Prod.snd hsecond
          dsimp only at hcur
          omega
        · split at hsecond
          · exact (Prod.mk.inj hsecond).1.symm
          · have hcur := congrArg Prod.snd hsecond
            dsimp only at hcur
            omega
      subst hsame
      rw [arenaExtend_zero hbase] at hthird
      obtain ⟨rfl, rfl⟩ := Prod.mk.inj hthird
      rfl
    · change hi ≠ 0
      unfold mapFailed at hhi
      omega
  · -- A granted request returns a pointer above the break.
    have hne : p ≠ mapFailed := by
      unfold mapFailed
      omega
    obtain ⟨s'', heq', _⟩ := extendHeap_granted account hfirst hsecond hthird hne
    rw [heq'] at heq
    have hpad := Nat.mod_lt (ptrSub 12 cur) (show 0 < 16 by decide)
    have hnull := congrArg Prod.snd heq
    rw [ptrAdd_of_lt (show p + ptrSub 12 cur % 16 < 2 ^ 64 by omega),
      ptrAdd_of_lt (by omega)] at hnull
    dsimp only at hnull
    omega

/-- A request of `my_malloc` that fails. -/
theorem mallocWith_null {size : Nat} (hsound : mmap.Sound) (h : Represents binOf s L)
    (heq : mallocWith binOf account mmap s size = some (s', 0)) :
    (s.arenaBase ≠ 0 → ∃ steps, s' = addScanSteps s steps) ∧ s'.heapLo = s.heapLo ∧
      s'.heapHi ≠ 0 := by
  rcases mallocWith_cases account mmap h size with
    ⟨c, _, _, _, s'', heq'⟩ | ⟨_, _, heq'⟩
  · rw [heq] at heq'
    have hnull := congrArg Prod.snd (Option.some.inj heq')
    dsimp only at hnull
    omega
  · rw [heq] at heq'
    generalize (L.lists (binOf (chunkNeed size))).length = steps at heq'
    obtain ⟨hsame, hlo, hhi⟩ :=
      extendHeap_null hsound (h.addScanSteps steps) (Option.some.inj heq').symm
    refine ⟨fun hbase => ⟨steps, (hsame hbase).trans ?_⟩, hlo, hhi⟩
    exact congrArg (fun hi => { addScanSteps s steps with heapHi := hi })
      (h.arena.top hbase).1.symm

end Refused

/-- What a failed call owes to the client `w`, whose heap has the blocks `headers`:
blocks, lists and payloads are as before, the blocks fill `[heap_lo, heap_hi)`, and
`check_invariant` passes and reads nothing else. -/
structure Consistent (check : Reader → Nat → Globals ι → Check Unit) (w : Client ι)
    (headers : List Nat) (s' : Globals ι) : Prop where
  tags : ∀ h ∈ headers, load s'.mem h 4 = load w.heap.mem h 4 ∧
    load s'.mem (h + blockSize w.heap.mem h - 4) 4 =
      load w.heap.mem (h + blockSize w.heap.mem h - 4) 4
  lists : ∀ i nodes, Linked (nextFree w.heap.mem) 0 (w.heap.freeHead i) nodes →
    Linked (nextFree s'.mem) 0 (s'.freeHead i) nodes
  length : s'.stat.freelistLen = w.heap.stat.freelistLen
  cur : w.heap.arenaBase ≠ 0 → s'.arenaCur = w.heap.arenaCur
  payloads : ∀ p x, w.Holds p → p ≤ x → x < p + (w.chunk p - 8) → s'.mem x = w.heap.mem x
  region : Tiles id (blockSize s'.mem) s'.heapLo headers s'.heapHi
  checks : (headers.filter fun h => load s'.mem h 4 % 2 = 0).length ≤ maxNodes →
    ∃ fuel, check (readWithin s'.mem headers) fuel s' = .ok ()

section Consistency

variable [DecidableEq ι] {binOf : Nat → ι} {account : Nat → AllocStat → AllocStat}
  {mmap : Mmap} {w : Client ι} {L : Layout ι} {headers : List Nat} {s' : Globals ι}
  {check : Reader → Nat → Globals ι → Check Unit} {size : Nat}

theorem RepresentsIn.freeCount_headers {s : Globals ι} (h : Represents binOf s L) :
    ((L.blocks.map Block.addr).filter fun a => load s.mem a 4 % 2 = 0).length =
      Layout.freeCount L.blocks := by
  rw [List.filter_map, List.length_map, Layout.freeCount, List.countP_eq_length_filter]
  congr 1
  apply List.filter_congr
  intro b hb
  have hflag := (h.threaded.tagged b hb).flag_head
  cases hused : b.used <;> simp [hflag, hused]

/-- A failed request is as it should be exactly where the heap has a block. -/
theorem consistent_iff (hsound : mmap.Sound) (h : Represents binOf w.heap L)
    (hheaders : Headers w.heap headers)
    (heq : mallocWith binOf account mmap w.heap size = some (s', 0))
    (hcheck : ∀ steps, L.blocks ≠ [] → Layout.freeCount L.blocks ≤ maxNodes →
      ∃ fuel, check (readWithin w.heap.mem (L.blocks.map Block.addr)) fuel
        (addScanSteps w.heap steps) = .ok ()) :
    Consistent check w headers s' ↔ w.heap.heapLo ≠ 0 := by
  have hsame := hheaders.unique h.headers
  subst hsame
  obtain ⟨hkeeps, hlo, hhi⟩ := mallocWith_null hsound h heq
  constructor
  · intro hconsistent hzero
    have hnil : L.blocks = [] := by
      by_contra hne
      have hset := (h.arena.tiles hne).1
      omega
    have hregion := hconsistent.region
    rw [hnil] at hregion
    have hends : s'.heapLo = s'.heapHi := hregion
    omega
  · intro hset
    have hne : L.blocks ≠ [] := fun hnil => hset (h.arena.untouched hnil).1
    have hbase := h.room.base_ne_zero hne
    obtain ⟨steps, rfl⟩ := hkeeps hbase
    have htiled := h.headers
    unfold Headers at htiled
    rw [if_neg hset] at htiled
    refine ⟨fun _ _ => ⟨rfl, rfl⟩, fun _ _ hlinked => hlinked, rfl, fun _ => rfl,
      fun _ _ _ _ _ => rfl, htiled.1, fun hcount => ?_⟩
    apply hcheck steps hne
    rw [← h.freeCount_headers]
    exact hcount

end Consistency

/-- A `NULL` of `my_calloc` that has called `my_malloc` is a `NULL` of `my_malloc`. -/
theorem callocWith_null {malloc : Globals ι → Nat → Option (Globals ι × Nat)}
    {s s' : Globals ι} {nmemb size n : Nat} (hrequest : callocRequest nmemb size = some n)
    (heq : callocWith malloc s nmemb size = some (s', 0)) : malloc s n = some (s', 0) := by
  rw [callocWith_some hrequest] at heq
  obtain ⟨⟨s₁, q⟩, hmalloc, hrest⟩ := Option.bind_eq_some_iff.mp heq
  dsimp only at hrest
  split at hrest
  · next hnull =>
      obtain ⟨rfl, rfl⟩ := Prod.mk.inj (Option.some.inj hrest)
      exact hmalloc
  · next hnull => exact absurd (Prod.mk.inj (Option.some.inj hrest)).2 hnull

namespace FirstFit

variable {mmap : Mmap} {w w' : Client Unit} {call : Call} {n : Nat}

/-- A call that returns `NULL` after it has reached `my_malloc`. -/
theorem null_of_malloc (hrequest : request w.heap call = some n)
    (hexec : w.exec (api mmap) call = some (w', 0)) :
    myMalloc mmap w.heap n = some (w'.heap, 0) := by
  cases call with
  | malloc size =>
      rw [← Option.some.inj hrequest]
      exact (Client.exec_malloc hexec).1
  | calloc nmemb size => exact callocWith_null hrequest (Client.exec_calloc hexec).1
  | realloc ptr size =>
      have heq : myRealloc mmap w.heap ptr size = some (w'.heap, 0) :=
        (Client.exec_realloc hexec).1
      simp only [request] at hrequest
      unfold myRealloc at heq
      split at hrequest
      · next hnull =>
          rw [← Option.some.inj hrequest]
          rwa [if_pos hnull] at heq
      · next hnull =>
          rw [if_neg hnull] at heq
          split at hrequest
          · simp at hrequest
          · next hpos =>
              rw [if_neg hpos] at heq
              split at hrequest
              · next hmoves =>
                  rw [resizeBlock_moves hmoves] at heq
                  obtain ⟨s₁, hmalloc, hsame⟩ := moveBlock_snd heq
                  rw [← Option.some.inj hrequest, hsame rfl]
                  exact hmalloc
              · simp at hrequest
  | free => simp [request] at hrequest
  | write => simp [request] at hrequest
  | statReset => simp [request] at hrequest

theorem checkInvariant_passes {L : Layout Unit} (h : Represents theList w.heap L) (steps : Nat)
    (hne : L.blocks ≠ []) (hcount : Layout.freeCount L.blocks ≤ maxNodes) :
    ∃ fuel, checkInvariant (readWithin w.heap.mem (L.blocks.map Block.addr)) fuel
      (addScanSteps w.heap steps) = .ok () :=
  ⟨_, checkWith_passes (h.addScanSteps steps) hne hcount (by simp) (by simp)
    (fun _ _ _ => rfl) rfl⟩

end FirstFit

namespace Segregated

variable {mmap : Mmap} {w w' : Client Bin} {call : Call} {n : Nat}

theorem null_of_malloc (hrequest : request call = some n)
    (hexec : w.exec (api mmap) call = some (w', 0)) :
    myMalloc mmap w.heap n = some (w'.heap, 0) := by
  cases call with
  | malloc size =>
      rw [← Option.some.inj hrequest]
      exact (Client.exec_malloc hexec).1
  | calloc nmemb size => exact callocWith_null hrequest (Client.exec_calloc hexec).1
  | realloc ptr size =>
      have heq : myRealloc mmap w.heap ptr size = some (w'.heap, 0) :=
        (Client.exec_realloc hexec).1
      simp only [request] at hrequest
      unfold myRealloc at heq
      split at hrequest
      · simp at hrequest
      · next hreaches =>
          rw [← Option.some.inj hrequest]
          by_cases hnull : ptr = 0
          · rwa [if_pos hnull] at heq
          · rw [if_neg hnull, if_neg (fun hzero => hreaches ⟨hnull, hzero⟩)] at heq
            obtain ⟨⟨s₁, q⟩, hmalloc, hrest⟩ := Option.bind_eq_some_iff.mp heq
            dsimp only at hrest
            split at hrest
            · next hq =>
                obtain ⟨rfl, _⟩ := Prod.mk.inj (Option.some.inj hrest)
                rw [hmalloc, hq]
            · next hq => exact absurd (Prod.mk.inj (Option.some.inj hrest)).2 hq
  | free => simp [request] at hrequest
  | write => simp [request] at hrequest
  | statReset => simp [request] at hrequest

theorem checkInvariant_passes {L : Layout Bin} (h : Represents sizeToBin w.heap L)
    (hacc : Accounts w.heap L) (steps : Nat)
    (hne : L.blocks ≠ []) (hcount : Layout.freeCount L.blocks ≤ maxNodes) :
    ∃ fuel, checkInvariant (readWithin w.heap.mem (L.blocks.map Block.addr)) fuel
      (addScanSteps w.heap steps) = .ok () := by
  refine ⟨_, checkWith_passes (h.addScanSteps steps) hne hcount (List.nodup_finRange 11)
    List.mem_finRange ?_ ?_⟩
  · intro i b hb
    obtain ⟨hrow, _, hbin⟩ := h.binned.mem_iff.mp hb
    have hge := b.size_ge
    have hread := readWithin_covers h.threaded.tagged b hrow b.addr 4 (Nat.le_refl _) (by omega)
    change (readWithin w.heap.mem (L.blocks.map Block.addr) b.addr 4 >>= _) = _
    rw [hread]
    change require _ _ = _
    rw [require_eq_ok, (h.threaded.tagged b hrow).tagSize_head]
    exact hbin
  · rw [require_eq_ok]
    exact hacc.live.symm

end Segregated

/-- Failed allocations in both files: in every state of an admitted run a call that
reaches `my_malloc` and returns `NULL` leaves a consistent heap if and only if the
heap has a block, which is when `heap_lo` has been set. -/
theorem failed_calls {mmap : Mmap} (hsound : mmap.Sound) :
    (∀ (w w' : Client Unit) call n headers,
      Runs.Reach (Client.step (FirstFit.api mmap)) (FirstFit.Admits mmap)
        (Client.initial Unit) w →
      w.Disciplined (2 ^ 63) (2 ^ 32 - 24) call → FirstFit.request w.heap call = some n →
      w.exec (FirstFit.api mmap) call = some (w', 0) → Headers w.heap headers →
      (Consistent FirstFit.checkInvariant w headers w'.heap ↔ w.heap.heapLo ≠ 0)) ∧
    ∀ (w w' : Client Segregated.Bin) call n headers,
      Runs.Reach (Client.step (Segregated.api mmap)) (Segregated.Admits mmap)
        (Client.initial Segregated.Bin) w →
      w.Disciplined (2 ^ 63) (2 ^ 63) call → Segregated.request call = some n →
      w.exec (Segregated.api mmap) call = some (w', 0) → Headers w.heap headers →
      (Consistent Segregated.checkInvariant w headers w'.heap ↔ w.heap.heapLo ≠ 0) := by
  constructor
  · intro w w' call n headers hreach _ hrequest hexec hheaders
    obtain ⟨L, h, _⟩ := (FirstFit.contract hsound).invariant
      (fun _ _ hadmits => hadmits.safe) hreach
    exact consistent_iff hsound h hheaders (FirstFit.null_of_malloc hrequest hexec)
      (FirstFit.checkInvariant_passes h)
  · intro w w' call n headers hreach _ hrequest hexec hheaders
    obtain ⟨L, h, _, hacc⟩ := Segregated.reach_accounts hsound hreach
    exact consistent_iff hsound h hheaders (Segregated.null_of_malloc hrequest hexec)
      (Segregated.checkInvariant_passes h hacc)

/-- A request for more than the region, with a block on the heap. -/
theorem failed_calls_example :
    (∃ w w' : Client Unit, Runs.run (Client.step (FirstFit.api lowRegion)) (Client.initial Unit)
        [.malloc 16] = some w ∧
      w.exec (FirstFit.api lowRegion) (.malloc (2 ^ 33)) = some (w', 0) ∧
      Consistent FirstFit.checkInvariant w [4108] w'.heap) ∧
    ∃ w w' : Client Segregated.Bin,
      Runs.run (Client.step (Segregated.api lowRegion)) (Client.initial Segregated.Bin)
        [.malloc 16] = some w ∧
      w.exec (Segregated.api lowRegion) (.realloc 4112 (2 ^ 33)) = some (w', 0) ∧
      Consistent Segregated.checkInvariant w [4108] w'.heap := by
  have hfacts : (Runs.run (Client.step (FirstFit.api lowRegion)) (Client.initial Unit)
      [.malloc 16]).map (fun w => (w.heap.heapLo, w.heap.heapHi, blockSize w.heap.mem 4108,
        (w.exec (FirstFit.api lowRegion) (.malloc (2 ^ 33))).map Prod.snd)) =
      some (4108, 4140, 32, some 0) := by decide +kernel
  have hfacts' : (Runs.run (Client.step (Segregated.api lowRegion))
      (Client.initial Segregated.Bin)
      [.malloc 16]).map (fun w => (w.heap.heapLo, w.heap.heapHi, blockSize w.heap.mem 4108,
        decide (w.Holds 4112),
        (w.exec (Segregated.api lowRegion) (.realloc 4112 (2 ^ 33))).map Prod.snd)) =
      some (4108, 4140, 32, true, some 0) := by decide +kernel
  have hheaders : ∀ {ι : Type} {s : Globals ι}, s.heapLo = 4108 → s.heapHi = 4140 →
      blockSize s.mem 4108 = 32 → Headers s [4108] := by
    intro ι s hlo hhi hsize
    simp [Headers, hlo, hhi, hsize, Tiles]
  constructor
  · obtain ⟨w, hrun, hw⟩ := Option.map_eq_some_iff.mp hfacts
    simp only [Prod.mk.injEq] at hw
    obtain ⟨hlo, hhi, hsize, hexec⟩ := hw
    obtain ⟨⟨w', p⟩, hexec, rfl⟩ := Option.map_eq_some_iff.mp hexec
    have hreach : Runs.Reach (Client.step (FirstFit.api lowRegion)) (FirstFit.Admits lowRegion)
        (Client.initial Unit) w := .of_run .start (by decide +kernel) hrun
    refine ⟨w, w', hrun, hexec, ?_⟩
    apply ((failed_calls lowRegion_sound).1 w w' (.malloc (2 ^ 33)) (2 ^ 33) [4108] hreach
      ⟨show 2 ^ 33 < 2 ^ 64 by decide, show 2 ^ 33 ≤ 2 ^ 63 by decide⟩ rfl hexec
      (hheaders hlo hhi hsize)).mpr
    rw [hlo]
    decide
  · obtain ⟨w, hrun, hw⟩ := Option.map_eq_some_iff.mp hfacts'
    simp only [Prod.mk.injEq] at hw
    obtain ⟨hlo, hhi, hsize, hholds, hexec⟩ := hw
    obtain ⟨⟨w', p⟩, hexec, rfl⟩ := Option.map_eq_some_iff.mp hexec
    have hreach : Runs.Reach (Client.step (Segregated.api lowRegion))
        (Segregated.Admits lowRegion) (Client.initial Segregated.Bin) w :=
      .of_run .start (by decide +kernel) hrun
    refine ⟨w, w', hrun, hexec, ?_⟩
    apply ((failed_calls lowRegion_sound).2 w w' (.realloc 4112 (2 ^ 33)) (2 ^ 33) [4108] hreach
      ⟨⟨Or.inr (of_decide_eq_true hholds), by decide⟩, show 2 ^ 33 ≤ 2 ^ 63 by decide⟩
      (by decide) hexec (hheaders hlo hhi hsize)).mpr
    rw [hlo]
    decide

/-- `mmap` always fails. -/
def noRegion : Mmap := fun _ => none

/-- Without blocks and with a region that is not empty the check begins with a read
that it may not make. -/
theorem checkWith_badRead {s : Globals ι} {bins : List ι}
    {ownBin : Reader → ι → Nat → Check Unit} {liveBytes : Nat → Check Unit}
    (hlt : s.heapLo < s.heapHi) :
    checkWith bins ownBin liveBytes (readWithin s.mem []) 1 s = .error (.badRead s.heapLo) := by
  simp [checkWith, collect, hlt, checkBlock, readWithin, bind, Except.bind]

theorem not_consistent_of_lt {check : Reader → Nat → Globals ι → Check Unit} {w : Client ι}
    {s' : Globals ι} (hlt : s'.heapLo < s'.heapHi) : ¬ Consistent check w [] s' := by
  intro hconsistent
  have hends : s'.heapLo = s'.heapHi := hconsistent.region
  omega

/-- The first request fails: `heap_hi` becomes the failure value of `arena_extend`,
and `check_invariant` starts to read at `NULL`. -/
theorem failed_calls_fails : noRegion.Sound ∧
    (∃ w' : Client Unit,
      (Client.initial Unit).exec (FirstFit.api noRegion) (.malloc 0) = some (w', 0) ∧
      Headers (Client.initial Unit).heap [] ∧
      ¬ Consistent FirstFit.checkInvariant (Client.initial Unit) [] w'.heap ∧
      FirstFit.checkInvariant (readWithin w'.heap.mem []) 1 w'.heap = .error (.badRead 0)) ∧
    ∃ w' : Client Segregated.Bin,
      (Client.initial Segregated.Bin).exec (Segregated.api noRegion) (.malloc 0) =
        some (w', 0) ∧
      Headers (Client.initial Segregated.Bin).heap [] ∧
      ¬ Consistent Segregated.checkInvariant (Client.initial Segregated.Bin) [] w'.heap ∧
      Segregated.checkInvariant (readWithin w'.heap.mem []) 1 w'.heap =
        .error (.badRead 0) := by
  have hfacts : ((Client.initial Unit).exec (FirstFit.api noRegion) (.malloc 0)).map
      (fun r => (r.2, r.1.heap.heapLo, r.1.heap.heapHi)) = some (0, 0, mapFailed) := by
    decide +kernel
  have hfacts' : ((Client.initial Segregated.Bin).exec (Segregated.api noRegion)
      (.malloc 0)).map (fun r => (r.2, r.1.heap.heapLo, r.1.heap.heapHi)) =
      some (0, 0, mapFailed) := by decide +kernel
  refine ⟨fun k base hmap => by simp [noRegion] at hmap, ?_, ?_⟩
  · obtain ⟨⟨w', p⟩, hexec, hw⟩ := Option.map_eq_some_iff.mp hfacts
    simp only [Prod.mk.injEq] at hw
    obtain ⟨rfl, hlo, hhi⟩ := hw
    have hlt : w'.heap.heapLo < w'.heap.heapHi := by
      rw [hlo, hhi]
      decide
    refine ⟨w', hexec, rfl, not_consistent_of_lt hlt, ?_⟩
    rw [← hlo]
    exact checkWith_badRead hlt
  · obtain ⟨⟨w', p⟩, hexec, hw⟩ := Option.map_eq_some_iff.mp hfacts'
    simp only [Prod.mk.injEq] at hw
    obtain ⟨rfl, hlo, hhi⟩ := hw
    have hlt : w'.heap.heapLo < w'.heap.heapHi := by
      rw [hlo, hhi]
      decide
    refine ⟨w', hexec, rfl, not_consistent_of_lt hlt, ?_⟩
    rw [← hlo]
    exact checkWith_badRead hlt

end AllocSitter
