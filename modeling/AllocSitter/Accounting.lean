/-
The account of live bytes in `segregated_allocator.c`, against the heap and
against the history of the run.
-/
import AllocSitter.HeapShape
import Mathlib.Order.Bounds.Basic

namespace AllocSitter

open ByteMemory LinkedChain Tiling

variable {ι : Type}

/-- The bytes that a list of blocks takes up. -/
def Layout.bytes (blocks : List Block) : Nat := (blocks.map Block.size).sum

theorem Layout.bytes_perm {blocks blocks' : List Block} (h : blocks.Perm blocks') :
    Layout.bytes blocks = Layout.bytes blocks' :=
  (h.map Block.size).sum_eq

theorem Layout.bytes_cons (b : Block) (blocks : List Block) :
    Layout.bytes (b :: blocks) = b.size + Layout.bytes blocks := by
  simp [Layout.bytes]

/-- Used and free blocks together. -/
theorem Layout.blocks_split (blocks : List Block) :
    (Layout.usedBlocks blocks ++ blocks.filter fun b => !b.used).Perm blocks :=
  List.filter_append_perm (fun b : Block => b.used) blocks

theorem Layout.bytes_split (blocks : List Block) :
    Layout.bytes blocks = Layout.bytes (Layout.usedBlocks blocks) +
      Layout.bytes (blocks.filter fun b => !b.used) := by
  rw [← Layout.bytes_perm (Layout.blocks_split blocks)]
  simp [Layout.bytes]

section Represented

variable [DecidableEq ι] {binOf : Nat → ι} {s : Globals ι} {L : Layout ι}

/-- The row fills the arena from the bottom of the heap to the break. -/
theorem RepresentsIn.cur_eq (h : Represents binOf s L) (hne : L.blocks ≠ []) :
    s.arenaCur = s.heapLo + Layout.bytes L.blocks :=
  (h.arena.tiles hne).2.hi_eq

/-- The used blocks fit below the break. -/
theorem RepresentsIn.used_bytes_le {shape : Globals ι → List Block → Prop} [LawfulShape shape]
    (h : RepresentsIn shape binOf s L) (hne : L.blocks ≠ []) :
    s.arenaBase + Layout.bytes (Layout.usedBlocks L.blocks) ≤ s.arenaCur := by
  have hsplit := Layout.bytes_split L.blocks
  have hsum : s.arenaBase + 12 + Layout.bytes L.blocks ≤ s.arenaCur := (h.room.spread hne).sum_le
  omega

theorem RepresentsIn.used_bytes_lt {shape : Globals ι → List Block → Prop} [LawfulShape shape]
    (h : RepresentsIn shape binOf s L) :
    Layout.bytes (Layout.usedBlocks L.blocks) < 2 ^ 64 := by
  by_cases hnil : L.blocks = []
  · simp [hnil, Layout.usedBlocks, Layout.bytes]
  · have hcur := h.room.cur_lt (h.room.base_ne_zero hnil)
    have hle := h.used_bytes_le hnil
    omega

end Represented

namespace Segregated

variable {shape : State → List Block → Prop} [LawfulShape shape] {mmap : Mmap} {s s' : State}
  {L L' : Layout Bin} {need p : Nat}

/-- The account agrees with the heap, and the peak is not below it. -/
structure Accounts (s : State) (L : Layout Bin) : Prop where
  live : s.stat.liveRealBytes = Layout.bytes (Layout.usedBlocks L.blocks)
  peak : s.stat.liveRealBytes ≤ s.stat.peakLiveRealBytes

theorem liveAdd_live (n : Nat) (stat : AllocStat) :
    (liveAdd n stat).liveRealBytes = ptrAdd stat.liveRealBytes n := by
  simp only [liveAdd]
  split <;> rfl

theorem liveAdd_peak (n : Nat) (stat : AllocStat) :
    (liveAdd n stat).peakLiveRealBytes =
      max stat.peakLiveRealBytes (liveAdd n stat).liveRealBytes := by
  rw [liveAdd_live]
  simp only [liveAdd]
  split
  · next hraise => exact (Nat.max_eq_right (Nat.le_of_lt hraise)).symm
  · next hkeep => exact (Nat.max_eq_left (Nat.le_of_not_lt hkeep)).symm

/-- `my_malloc` keeps the account: the sum does not wrap, because the blocks fit
into the region. -/
theorem gains_accounts (hacc : Accounts s L) (hgains : Gains liveAdd s L need s' p L')
    (hrep : RepresentsIn shape sizeToBin s' L') :
    Accounts s' L' ∧ s.stat.liveRealBytes ≤ s'.stat.liveRealBytes ∧
      s'.stat.peakLiveRealBytes = max s.stat.peakLiveRealBytes s'.stat.liveRealBytes := by
  have hlive := hacc.live
  have hpeak := hacc.peak
  rcases hgains with ⟨_, rfl, steps, hstat⟩ | ⟨u, steps, n, len, _, hsize, hperm, hstat⟩
  · have hlive' : s'.stat.liveRealBytes = s.stat.liveRealBytes := by
      rw [hstat]
      rfl
    have hpeak' : s'.stat.peakLiveRealBytes = s.stat.peakLiveRealBytes := by
      rw [hstat]
      rfl
    refine ⟨⟨hlive'.trans hlive, by omega⟩, by omega, ?_⟩
    rw [hpeak', hlive', Nat.max_eq_left hpeak]
  · have hbytes := (Layout.bytes_perm hperm).trans (Layout.bytes_cons u _)
    have hlt := hrep.used_bytes_lt
    have hlive' : s'.stat.liveRealBytes = ptrAdd s.stat.liveRealBytes need := by
      rw [hstat]
      exact liveAdd_live need _
    have hpeak' : s'.stat.peakLiveRealBytes =
        max s.stat.peakLiveRealBytes s'.stat.liveRealBytes := by
      rw [hstat]
      exact liveAdd_peak need _
    rw [ptrAdd_of_lt (by omega)] at hlive'
    refine ⟨⟨by omega, ?_⟩, by omega, hpeak'⟩
    rw [hpeak']
    exact Nat.le_max_right _ _

theorem arenaUsedBytes_mapped {blocks : List Block} (h : ArenaRoom s blocks)
    (hbase : s.arenaBase ≠ 0) : arenaUsedBytes s = s.arenaCur - s.arenaBase := by
  unfold arenaUsedBytes
  rw [if_neg hbase]
  exact ptrSub_of_le (h.top hbase).1 (h.cur_lt hbase)

theorem arenaUsedBytes_eq (h : Represents sizeToBin s L) :
    arenaUsedBytes s = s.arenaCur - s.arenaBase := by
  by_cases hbase : s.arenaBase = 0
  · have hcur := (h.arena.untouched (h.arena.unmapped hbase)).2
    unfold arenaUsedBytes
    rw [if_pos hbase]
    omega
  · exact arenaUsedBytes_mapped h.room hbase

/-- What is live is in use. -/
theorem live_le_used (h : RepresentsIn shape sizeToBin s L) (hacc : Accounts s L) :
    s.stat.liveRealBytes ≤ arenaUsedBytes s := by
  rw [hacc.live]
  by_cases hnil : L.blocks = []
  · simp [hnil, Layout.usedBlocks, Layout.bytes]
  · have hbase := h.room.base_ne_zero hnil
    have hle := h.used_bytes_le hnil
    rw [arenaUsedBytes_mapped h.room hbase]
    omega

theorem arenaUsedBytes_same (h : SameArena s s') :
    arenaUsedBytes s' = arenaUsedBytes s := by
  unfold arenaUsedBytes
  rw [h.arenaCur, h.arenaBase]

/-- The region in use never shrinks. -/
theorem arenaUsedBytes_le {blocks blocks' : List Block} (h : ArenaRoom s blocks)
    (h' : ArenaRoom s' blocks')
    (hgrows : s.arenaBase ≠ 0 → s'.arenaBase = s.arenaBase ∧ s.arenaCur ≤ s'.arenaCur) :
    arenaUsedBytes s ≤ arenaUsedBytes s' := by
  by_cases hbase : s.arenaBase = 0
  · rw [arenaUsedBytes, if_pos hbase]
    exact Nat.zero_le _
  · obtain ⟨hsame, hcur⟩ := hgrows hbase
    rw [arenaUsedBytes_mapped h hbase, arenaUsedBytes_mapped h' (hsame ▸ hbase), hsame]
    omega

/-- `my_free` counts the block out at its size. -/
theorem myFree_accounts (h : RepresentsIn shape sizeToBin s L) (hacc : Accounts s L)
    {c : Block} (hc : c ∈ Layout.usedBlocks L.blocks) :
    c.size ≤ s.stat.liveRealBytes ∧
      ∃ L', RepresentsIn shape sizeToBin (myFree s c.payload) L' ∧
      (Layout.usedBlocks L.blocks).Perm (c :: Layout.usedBlocks L'.blocks) ∧
      Accounts (myFree s c.payload) L' ∧
      (myFree s c.payload).stat.liveRealBytes ≤ s.stat.liveRealBytes ∧
      (myFree s c.payload).stat.peakLiveRealBytes = s.stat.peakLiveRealBytes ∧
      SameArena s (myFree s c.payload) := by
  obtain ⟨hrow, hused⟩ := Layout.mem_usedBlocks.mp hc
  obtain ⟨pre, post, hblocks⟩ := List.append_of_mem hrow
  obtain ⟨hrep, _, hstat, hsame⟩ := myFree_spec h hblocks hused
  have hperm : (Layout.usedBlocks L.blocks).Perm
      (c :: Layout.usedBlocks (pre ++ [c.release] ++ post)) := by
    rw [hblocks]
    exact usedBlocks_freed hused
  have hbytes := (Layout.bytes_perm hperm).trans (Layout.bytes_cons c _)
  have hlive := hacc.live
  have hpeak := hacc.peak
  have hlt := h.used_bytes_lt
  have hlive' : (myFree s c.payload).stat.liveRealBytes = s.stat.liveRealBytes - c.size := by
    rw [hstat]
    exact ptrSub_of_le (by omega) (by omega)
  have hpeak' : (myFree s c.payload).stat.peakLiveRealBytes =
      s.stat.peakLiveRealBytes := by rw [hstat]
  refine ⟨by omega, _, hrep, hperm, ⟨?_, by omega⟩, by omega, hpeak', hsame⟩
  change _ = Layout.bytes (Layout.usedBlocks (pre ++ [c.release] ++ post))
  omega

/-- The state in which a call makes its call of `my_free`, and the pointer it
passes, if it makes one: in `my_realloc` both the old and the new block are live
then. -/
def freesIn (mmap : Mmap) (s : State) : Call → Option (State × Nat)
  | .free ptr => some (s, ptr)
  | .realloc ptr size =>
      if ptr = 0 then none
      else if size = 0 then some (s, ptr)
      else do
        let (s, newPtr) ← myMalloc mmap s size
        if newPtr = 0 then none
        else some (copyOver s ptr newPtr size, ptr)
  | _ => none

/-- What `my_free` subtracts is not more than there is. -/
def FreeCovered (s : State) (ptr : Nat) : Prop :=
  ptr ≠ 0 → load s.mem (ptrSub ptr 4) 4 % 2 = 1 →
    tagSize (load s.mem (ptrSub ptr 4) 4) ≤ s.stat.liveRealBytes

/-- A client together with the live bytes at all moments since the last
`alloc_stat_reset`, or since the start. -/
structure Tracked where
  client : Client Bin
  since : List Nat

namespace Tracked

def initial : Tracked := ⟨Client.initial Bin, [0]⟩

/-- The live bytes where `my_free` is about to be called and where the call
returns. -/
def moments (mmap : Mmap) (s : State) (call : Call) (s' : State) : List Nat :=
  ((freesIn mmap s call).toList.map fun between => between.1.stat.liveRealBytes) ++
    [s'.stat.liveRealBytes]

def step (mmap : Mmap) (t : Tracked) (call : Call) : Option Tracked :=
  (t.client.step (api mmap) call).map fun w =>
    ⟨w, if call = .statReset then [w.heap.stat.liveRealBytes]
      else t.since ++ moments mmap t.client.heap call w.heap⟩

end Tracked

/-- Raising the peak step by step keeps it the greatest value seen. -/
theorem isGreatest_foldl_max {seen : List Nat} {peak : Nat}
    (h : IsGreatest {v | v ∈ seen} peak) (new : List Nat) :
    IsGreatest {v | v ∈ seen ++ new} (new.foldl max peak) := by
  induction new generalizing seen peak with
  | nil => simpa using h
  | cons v rest ih =>
      have hnext : IsGreatest {x | x ∈ seen ++ [v]} (max peak v) := by
        constructor
        · rcases Nat.le_total peak v with hle | hle
          · simp [Nat.max_eq_right hle]
          · simp [Nat.max_eq_left hle, show peak ∈ seen from h.1]
        · intro x hx
          have hx' : x ∈ seen ∨ x = v := by simpa using hx
          rcases hx' with hx' | rfl
          · exact Nat.le_trans (h.2 hx') (Nat.le_max_left _ _)
          · exact Nat.le_max_right _ _
      simpa using ih hnext

/-- What an admitted call does to the account. -/
structure AccountStep (mmap : Mmap) (s : State) (call : Call) (s' : State) : Prop where
  /-- The account agrees with the heap again. -/
  accounts : ∃ L, Represents sizeToBin s' L ∧ Accounts s' L
  grows : arenaUsedBytes s ≤ arenaUsedBytes s'
  covered : ∀ between ptr, freesIn mmap s call = some (between, ptr) → FreeCovered between ptr
  peak : call ≠ .statReset → s'.stat.peakLiveRealBytes =
    (Tracked.moments mmap s call s').foldl max s.stat.peakLiveRealBytes
  /-- The peak is raised to what is in use at most. -/
  within : call ≠ .statReset →
    s'.stat.peakLiveRealBytes ≤ max s.stat.peakLiveRealBytes (arenaUsedBytes s')

section Step

variable {call : Call}

/-- A call that does not free. -/
theorem accountStep_of_none (hnone : freesIn mmap s call = none)
    (hrep : Represents sizeToBin s' L') (hacc : Accounts s' L')
    (hgrows : arenaUsedBytes s ≤ arenaUsedBytes s')
    (hpeak : s'.stat.peakLiveRealBytes =
      max s.stat.peakLiveRealBytes s'.stat.liveRealBytes) :
    AccountStep mmap s call s' := by
  refine ⟨⟨L', hrep, hacc⟩, hgrows, ?_, fun _ => ?_, fun _ => ?_⟩
  · intro between ptr hsome
    rw [hnone] at hsome
    simp at hsome
  · simp only [Tracked.moments, hnone, Option.toList_none, List.map_nil, List.nil_append,
      List.foldl_cons, List.foldl_nil]
    exact hpeak
  · rw [hpeak]
    exact max_le_max_left _ (live_le_used hrep hacc)

/-- A call that frees the block `c` in the state `s'`. -/
theorem accountStep_of_some {c : Block} (hsome : freesIn mmap s call = some (s', c.payload))
    (hrep : Represents sizeToBin s' L') (hacc : Accounts s' L')
    (hc : c ∈ Layout.usedBlocks L'.blocks) (hgrows : arenaUsedBytes s ≤ arenaUsedBytes s')
    (hpeak : s'.stat.peakLiveRealBytes =
      max s.stat.peakLiveRealBytes s'.stat.liveRealBytes) :
    AccountStep mmap s call (myFree s' c.payload) := by
  obtain ⟨hcovered, L'', hrep', _, hacc', hless, hpeak', hsame⟩ := myFree_accounts hrep hacc hc
  have hrow := (Layout.mem_usedBlocks.mp hc).1
  refine ⟨⟨L'', hrep', hacc'⟩, ?_, ?_, fun _ => ?_, fun _ => ?_⟩
  · rw [arenaUsedBytes_same hsame]
    exact hgrows
  · intro between ptr hbetween _ _
    rw [hsome] at hbetween
    obtain ⟨rfl, rfl⟩ := Prod.mk.inj (Option.some.inj hbetween)
    rw [hrep.header_eq hrow, (hrep.threaded.tagged c hrow).tagSize_head]
    exact hcovered
  · simp only [Tracked.moments, hsome, Option.toList_some, List.map_cons, List.map_nil,
      List.cons_append, List.nil_append, List.foldl_cons, List.foldl_nil]
    rw [hpeak', hpeak]
    exact (Nat.max_eq_left (Nat.le_trans hless (Nat.le_max_right _ _))).symm
  · rw [hpeak', hpeak, arenaUsedBytes_same hsame]
    exact max_le_max_left _ (live_le_used hrep hacc)

theorem accountStep_malloc (hsound : mmap.Sound) (h : Represents sizeToBin s L)
    (hacc : Accounts s L) (hnone : freesIn mmap s call = none) {size : Nat}
    (hsize : size + 40 ≤ 2 ^ 64) (hsafe : RequestSafe sizeToBin mmap s size) :
    ∃ s' p, myMalloc mmap s size = some (s', p) ∧ AccountStep mmap s call s' := by
  obtain ⟨s', p, L', heq, hcase, hrep, _⟩ :=
    mallocWith_spec liveAdd_freelistLen h hsound hsize hsafe
  obtain ⟨hacc', _, hpeak⟩ := gains_accounts hacc (hcase.gains h.lists_free) hrep
  exact ⟨s', p, heq, accountStep_of_none hnone hrep hacc'
    (arenaUsedBytes_le h.room hrep.room hcase.grows) hpeak⟩

theorem accountStep_calloc (hsound : mmap.Sound) (h : Represents sizeToBin s L)
    (hacc : Accounts s L) {nmemb size : Nat} (hsafe : Safe mmap s (.calloc nmemb size)) :
    ∃ s' p, myCalloc mmap s nmemb size = some (s', p) ∧
      AccountStep mmap s (.calloc nmemb size) s' := by
  cases hrequest : callocRequest nmemb size with
  | none =>
      exact ⟨s, 0, callocWith_none hrequest, accountStep_of_none rfl h hacc (Nat.le_refl _)
        (Nat.max_eq_left hacc.peak).symm⟩
  | some n =>
      obtain ⟨hn, hsafe'⟩ := hsafe n hrequest
      obtain ⟨s₁, p, L', m, _, heq, hcase, hrep₁, hrep, _⟩ :=
        callocWith_spec liveAdd_freelistLen hsound h hrequest hn hsafe'
      obtain ⟨hacc', _, hpeak⟩ := gains_accounts hacc (hcase.gains h.lists_free) hrep₁
      have hgrows : arenaUsedBytes s ≤ arenaUsedBytes s₁ :=
        arenaUsedBytes_le h.room hrep₁.room hcase.grows
      exact ⟨_, p, heq, accountStep_of_none rfl hrep ⟨hacc'.live, hacc'.peak⟩ hgrows hpeak⟩

/-- `my_free` of a live block or of `NULL`. -/
theorem accountStep_free (h : Represents sizeToBin s L) (hacc : Accounts s L) {ptr : Nat}
    (howned : L.Owned ptr) (hsome : freesIn mmap s call = some (s, ptr)) :
    AccountStep mmap s call (myFree s ptr) := by
  have hpeak := (Nat.max_eq_left hacc.peak).symm
  rcases howned with rfl | ⟨c, hc, rfl⟩
  · rw [myFree_null]
    refine ⟨⟨L, h, hacc⟩, Nat.le_refl _, ?_, fun _ => ?_, fun _ => Nat.le_max_left _ _⟩
    · intro between ptr hbetween hptr
      rw [hsome] at hbetween
      obtain ⟨rfl, rfl⟩ := Prod.mk.inj (Option.some.inj hbetween)
      exact absurd rfl hptr
    · simp only [Tracked.moments, hsome, Option.toList_some, List.map_cons, List.map_nil,
        List.cons_append, List.nil_append, List.foldl_cons, List.foldl_nil]
      rw [← hpeak, ← hpeak]
  · exact accountStep_of_some hsome h hacc hc (Nat.le_refl _) hpeak

theorem accountStep_realloc (hsound : mmap.Sound) (h : Represents sizeToBin s L)
    (hacc : Accounts s L) {ptr size : Nat} (howned : L.Owned ptr)
    (hsafe : Safe mmap s (.realloc ptr size)) :
    ∃ s' q, myRealloc mmap s ptr size = some (s', q) ∧
      AccountStep mmap s (.realloc ptr size) s' := by
  by_cases hnull : ptr = 0
  · obtain ⟨hn, hsafe'⟩ := hsafe size (by simp [request, hnull])
    obtain ⟨s', p, heq, hstep⟩ := accountStep_malloc hsound h hacc
      (by simp [freesIn, hnull] : freesIn mmap s (.realloc ptr size) = none) hn hsafe'
    exact ⟨s', p, by simpa [myRealloc, hnull] using heq, hstep⟩
  · by_cases hzero : size = 0
    · exact ⟨_, 0, by simp only [myRealloc, hnull, hzero, ↓reduceIte],
        accountStep_free h hacc howned (by simp only [freesIn, hnull, hzero, ↓reduceIte])⟩
    · obtain ⟨c, hc, rfl⟩ := howned.resolve_left hnull
      obtain ⟨hn, hsafe'⟩ := hsafe size (by simp [request, hzero])
      obtain ⟨s₁, p, L₁, hmalloc, hcase, hrep, _, hresult⟩ :=
        myRealloc_spec hsound h hc hzero hn hsafe'
      obtain ⟨hacc₁, _, hpeak⟩ := gains_accounts hacc (hcase.gains h.lists_free) hrep
      have hgrows := arenaUsedBytes_le h.room hrep.room hcase.grows
      rcases hresult with ⟨rfl, heq⟩ | ⟨s₂, hcopy, hp, hrep₂, hc₁, _, _, heq⟩
      · have hnone : freesIn mmap s (.realloc c.payload size) = none := by
          simp [freesIn, hnull, hzero, hmalloc]
        exact ⟨s₁, 0, heq, accountStep_of_none hnone hrep hacc₁ hgrows hpeak⟩
      · have hsome : freesIn mmap s (.realloc c.payload size) = some (s₂, c.payload) := by
          simp [freesIn, hnull, hzero, hmalloc, hp, hcopy]
        have hstat : s₂.stat = s₁.stat := by rw [hcopy]; rfl
        have hused : arenaUsedBytes s₂ = arenaUsedBytes s₁ := by rw [hcopy]; rfl
        refine ⟨_, p, heq, accountStep_of_some hsome hrep₂ ⟨?_, ?_⟩ hc₁ ?_ ?_⟩
        · rw [hstat]
          exact hacc₁.live
        · rw [hstat]
          exact hacc₁.peak
        · rw [hused]
          exact hgrows
        · rw [hstat]
          exact hpeak

/-- Every admitted call keeps the account. -/
theorem accountStep {w w' : Client Bin} (hsound : mmap.Sound)
    (h : Represents sizeToBin w.heap L) (howns : Owns w.live (Layout.usedBlocks L.blocks))
    (hacc : Accounts w.heap L) (hadmits : Admits mmap w call)
    (hstep : w.step (api mmap) call = some w') : AccountStep mmap w.heap call w'.heap := by
  obtain ⟨hallows, hsafe⟩ := hadmits.safe
  have hafter := Client.step_heap hstep
  have hpeak := (Nat.max_eq_left hacc.peak).symm
  cases call with
  | malloc size =>
      obtain ⟨hn, hsafe'⟩ := hsafe size rfl
      obtain ⟨s', p, heq, hresult⟩ := accountStep_malloc hsound h hacc
        (rfl : freesIn mmap w.heap (.malloc size) = none) hn hsafe'
      simp only [Client.heapAfter, api, heq, Option.map_some, Option.some.injEq] at hafter
      exact hafter ▸ hresult
  | calloc nmemb size =>
      obtain ⟨s', p, heq, hresult⟩ := accountStep_calloc hsound h hacc hsafe
      simp only [Client.heapAfter, api, heq, Option.map_some, Option.some.injEq] at hafter
      exact hafter ▸ hresult
  | free ptr =>
      have hresult := accountStep_free h hacc (howns.owned hallows)
        (rfl : freesIn mmap w.heap (.free ptr) = some (w.heap, ptr))
      exact Option.some.inj hafter ▸ hresult
  | realloc ptr size =>
      obtain ⟨s', q, heq, hresult⟩ :=
        accountStep_realloc hsound h hacc (howns.owned hallows.1) hsafe
      simp only [Client.heapAfter, api, heq, Option.map_some, Option.some.injEq] at hafter
      exact hafter ▸ hresult
  | write addr byte =>
      rw [← Option.some.inj hafter]
      exact accountStep_of_none rfl (h.client_write howns hallows) ⟨hacc.live, hacc.peak⟩
        (Nat.le_refl _) hpeak
  | statReset =>
      rw [← Option.some.inj hafter]
      obtain ⟨hrep, _⟩ := (contract hsound).statReset h
      refine ⟨⟨L, hrep, hacc.live, Nat.le_refl _⟩, Nat.le_refl _, ?_, fun hne => absurd rfl hne,
        fun hne => absurd rfl hne⟩
      intro between ptr hsome
      simp [freesIn] at hsome

end Step

/-- The account at one point of a run, against the headers from `heap_lo` to
`heap_hi`, the lists from their heads, and the history. -/
structure Accounted (t : Tracked) (headers : List Nat) (nodes : Bin → List Nat) : Prop where
  tiled : Headers t.client.heap headers
  linked : ∀ i, Linked (nextFree t.client.heap.mem) 0 (t.client.heap.freeHead i) (nodes i)
  live : t.client.heap.stat.liveRealBytes =
    ((headers.filter fun h => load t.client.heap.mem h 4 % 2 = 1).map
      (blockSize t.client.heap.mem)).sum
  peak : IsGreatest {v | v ∈ t.since} t.client.heap.stat.peakLiveRealBytes
  arena : t.client.heap.heapLo ≠ 0 → arenaUsedBytes t.client.heap =
    (t.client.heap.heapLo - t.client.heap.arenaBase) + t.client.heap.stat.liveRealBytes +
      ∑ i, ((nodes i).map (blockSize t.client.heap.mem)).sum

/-- The invariant behind it. -/
structure Tracked.Inv (t : Tracked) : Prop where
  client : AllocSitter.Inv sizeToBin t.client
  accounts : ∃ L, Represents sizeToBin t.client.heap L ∧ Accounts t.client.heap L
  peak : IsGreatest {v | v ∈ t.since} t.client.heap.stat.peakLiveRealBytes

theorem Tracked.inv_initial : Tracked.initial.Inv := by
  refine ⟨AllocSitter.inv_initial sizeToBin, ⟨Layout.empty Bin, represents_initial sizeToBin,
    rfl, Nat.le_refl _⟩, ?_⟩
  constructor
  · exact List.mem_singleton_self 0
  · intro v hv
    exact Nat.le_of_eq (List.mem_singleton.mp hv)

section Runs

variable {t t' : Tracked} {call : Call}

/-- One admitted call, with its moments added to the history. -/
theorem Tracked.Inv.step (hsound : mmap.Sound) (h : t.Inv) (hadmits : Admits mmap t.client call)
    (hstep : t.step mmap call = some t') :
    t'.Inv ∧ AccountStep mmap t.client.heap call t'.client.heap := by
  obtain ⟨L, hrep, howns⟩ := h.client
  obtain ⟨L₀, hrep₀, hacc₀⟩ := h.accounts
  have hacc : Accounts t.client.heap L := by
    refine ⟨?_, hacc₀.peak⟩
    rw [hrep.blocks_unique hrep₀]
    exact hacc₀.live
  obtain ⟨w', hclient, rfl⟩ := Option.map_eq_some_iff.mp hstep
  have haccount := accountStep hsound hrep howns hacc hadmits hclient
  obtain ⟨hallows, hsafe⟩ := hadmits.safe
  have hinv := (contract hsound).keeps h.client hallows hsafe hclient
  refine ⟨⟨hinv, haccount.accounts, ?_⟩, haccount⟩
  by_cases hreset : call = .statReset
  · subst hreset
    have hheap : w'.heap = allocStatReset t.client.heap :=
      (Option.some.inj (Client.step_heap hclient)).symm
    simp only [hheap, ↓reduceIte]
    constructor
    · exact List.mem_singleton_self _
    · intro v hv
      exact Nat.le_of_eq (List.mem_singleton.mp hv)
  · simp only [hreset, ↓reduceIte]
    rw [haccount.peak hreset]
    exact isGreatest_foldl_max h.peak _

theorem Tracked.Inv.run (hsound : mmap.Sound)
    (hreach : Runs.Reach (Tracked.step mmap) (fun t => Admits mmap t.client)
      Tracked.initial t) : t.Inv := by
  induction hreach with
  | start => exact Tracked.inv_initial
  | next _ hadmits hstep ih => exact (ih.step hsound hadmits hstep).1

/-- Every admitted run of a client has its history. -/
theorem Tracked.Inv.of_client {w : Client Bin} (hsound : mmap.Sound)
    (hreach : Runs.Reach (Client.step (api mmap)) (Admits mmap) (Client.initial Bin) w) :
    ∃ t : Tracked, t.client = w ∧ t.Inv := by
  induction hreach with
  | start => exact ⟨Tracked.initial, rfl, Tracked.inv_initial⟩
  | @next _ after action _ hadmits hstep ih =>
      obtain ⟨t, rfl, hinv⟩ := ih
      obtain ⟨t', htracked, hclient⟩ :
          ∃ t', t.step mmap action = some t' ∧ t'.client = after := by
        simp [Tracked.step, hstep]
      exact ⟨t', hclient, (hinv.step hsound hadmits htracked).1⟩

theorem reach_accounts {w : Client Bin} (hsound : mmap.Sound)
    (hreach : Runs.Reach (Client.step (api mmap)) (Admits mmap) (Client.initial Bin) w) :
    ∃ L, Represents sizeToBin w.heap L ∧ Owns w.live (Layout.usedBlocks L.blocks) ∧
      Accounts w.heap L := by
  obtain ⟨t, rfl, hinv⟩ := Tracked.Inv.of_client hsound hreach
  obtain ⟨L, hrep, howns⟩ := hinv.client
  obtain ⟨L₀, hrep₀, hacc₀⟩ := hinv.accounts
  refine ⟨L, hrep, howns, ?_, hacc₀.peak⟩
  rw [hrep.blocks_unique hrep₀]
  exact hacc₀.live

/-- The invariant, read off the memory. -/
theorem Tracked.Inv.accounted (h : t.Inv) : ∃ headers nodes, Accounted t headers nodes := by
  obtain ⟨L, hrep, hacc⟩ := h.accounts
  have hsize : ∀ b ∈ L.blocks, blockSize t.client.heap.mem b.addr = b.size :=
    fun b hb => (hrep.threaded.tagged b hb).tagSize_head
  refine ⟨L.blocks.map Block.addr, L.chains, hrep.headers, hrep.threaded.linked, ?_, h.peak, ?_⟩
  · rw [hacc.live, List.filter_map, List.map_map]
    have hfilter : L.blocks.filter ((fun h => decide (load t.client.heap.mem h 4 % 2 = 1)) ∘
        Block.addr) = Layout.usedBlocks L.blocks := by
      apply List.filter_congr
      intro b hb
      have hflag := (hrep.threaded.tagged b hb).flag_head
      cases hused : b.used <;> simp [hflag, hused]
    rw [hfilter]
    unfold Layout.bytes
    congr 1
    apply List.map_congr_left
    intro b hb
    exact (hsize b (Layout.mem_usedBlocks.mp hb).1).symm
  · intro hlo
    have hne : L.blocks ≠ [] := fun hnil => hlo (hrep.arena.untouched hnil).1
    have hlists : ∑ i, ((L.chains i).map (blockSize t.client.heap.mem)).sum =
        Layout.bytes (L.blocks.filter fun b => !b.used) := by
      unfold Layout.bytes
      rw [hrep.binned.sum_eq]
      apply Finset.sum_congr rfl
      intro i _
      unfold Layout.chains
      rw [List.map_map]
      congr 1
      apply List.map_congr_left
      intro b hb
      exact hsize b (hrep.binned.mem_iff.mp hb).1
    have hsplit := Layout.bytes_split L.blocks
    have hcur := hrep.cur_eq hne
    have hbase := (hrep.arena.tiles hne).1
    rw [arenaUsedBytes_eq hrep, hacc.live, hlists]
    omega

/-- Along every admitted run the account is right at every point: the live bytes
are the used blocks, the peak is the greatest value since the last reset, moments
inside `my_realloc` included, nothing is ever subtracted that is not there, and
the region in use is accounted for and never shrinks. -/
theorem memory_accounting (hsound : mmap.Sound)
    (hreach : Runs.Reach (Tracked.step mmap) (fun t => Admits mmap t.client)
      Tracked.initial t) :
    (∃ headers nodes, Accounted t headers nodes) ∧
      (∀ call, Admits mmap t.client call →
        (∃ t', t.step mmap call = some t') ∧
        ∀ between ptr, freesIn mmap t.client.heap call = some (between, ptr) →
          FreeCovered between ptr) ∧
      ∀ t', Runs.Reach (Tracked.step mmap) (fun t => Admits mmap t.client) t t' →
        arenaUsedBytes t.client.heap ≤ arenaUsedBytes t'.client.heap := by
  have hinv := Tracked.Inv.run hsound hreach
  refine ⟨hinv.accounted, ?_, ?_⟩
  · intro call hadmits
    obtain ⟨hallows, hsafe⟩ := hadmits.safe
    obtain ⟨w', p, hexec, _⟩ := (contract hsound).step hinv.client hallows hsafe
    have hstep : ∃ t', t.step mmap call = some t' := by
      simp [Tracked.step, Client.step, hexec]
    obtain ⟨t', ht'⟩ := hstep
    exact ⟨⟨t', ht'⟩, (hinv.step hsound hadmits ht').2.covered⟩
  · intro t' hlater
    have hboth : t'.Inv ∧ arenaUsedBytes t.client.heap ≤ arenaUsedBytes t'.client.heap := by
      induction hlater with
      | start => exact ⟨hinv, Nat.le_refl _⟩
      | next _ hadmits hstep ih =>
          obtain ⟨hinv', haccount⟩ := ih.1.step hsound hadmits hstep
          exact ⟨hinv', Nat.le_trans ih.2 haccount.grows⟩
    exact hboth.2

/-- A run with a reset and a moved block: at the end 16 bytes are live, and the
peak of 160 is the moment inside `my_realloc`. -/
theorem memory_accounting_example : ∃ t,
    Runs.run (Tracked.step lowRegion) Tracked.initial
        [.malloc 100, .statReset, .malloc 20, .realloc 4112 8, .free 4224] = some t ∧
      t.client.heap.stat.liveRealBytes = 16 ∧ t.client.heap.stat.peakLiveRealBytes = 160 ∧
      ∃ headers nodes, Accounted t headers nodes := by
  have hfacts : (Runs.run (Tracked.step lowRegion) Tracked.initial
      [.malloc 100, .statReset, .malloc 20, .realloc 4112 8, .free 4224]).map
      (fun t => (t.client.heap.stat.liveRealBytes, t.client.heap.stat.peakLiveRealBytes)) =
        some (16, 160) := by decide +kernel
  obtain ⟨t, hrun, ht⟩ := Option.map_eq_some_iff.mp hfacts
  obtain ⟨hlive, hpeak⟩ := Prod.mk.inj ht
  have hreach : Runs.Reach (Tracked.step lowRegion) (fun t => Admits lowRegion t.client)
      Tracked.initial t := .of_run .start (by decide +kernel) hrun
  exact ⟨t, hrun, hlive, hpeak, (memory_accounting lowRegion_sound hreach).1⟩

/-- After the unchecked failure of `mmap` the gap behind the first block is in use
and on no account. -/
theorem memory_accounting_fails : lateRegion.Sound ∧ ∃ t,
    Runs.run (Tracked.step lateRegion) Tracked.initial [.malloc 0, .malloc 0] = some t ∧
      Runs.Reach (Tracked.step lateRegion)
        (fun t => Client.Disciplined (2 ^ 63) (2 ^ 63) t.client) Tracked.initial t ∧
      ¬ ∃ headers nodes, Accounted t headers nodes := by
  have hfacts : (Runs.run (Tracked.step lateRegion) Tracked.initial
      [.malloc 0, .malloc 0]).map
      (fun t => (t.client.heap.heapLo, t.client.heap.arenaBase, arenaUsedBytes t.client.heap,
        t.client.heap.stat.liveRealBytes, decide (∀ i, t.client.heap.freeHead i = 0))) =
        some (4109, 4096, 60, 32, true) := by decide +kernel
  obtain ⟨t, hrun, ht⟩ := Option.map_eq_some_iff.mp hfacts
  simp only [Prod.mk.injEq] at ht
  obtain ⟨hlo, hbase, hused, hlive, hheads⟩ := ht
  refine ⟨lateRegion_sound, t, hrun, .of_run .start (by decide +kernel) hrun, ?_⟩
  rintro ⟨headers, nodes, hacc⟩
  have hnodes : ∀ i, nodes i = [] := by
    intro i
    have hlinked := hacc.linked i
    rw [of_decide_eq_true hheads i] at hlinked
    exact hlinked.unique (linked_nil.mpr rfl)
  have harena := hacc.arena (by omega)
  simp only [hused, hlo, hbase, hlive, hnodes, List.map_nil, List.sum_nil,
    Finset.sum_const_zero] at harena
  omega

end Runs

end Segregated

end AllocSitter
