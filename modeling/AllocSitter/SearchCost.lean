/-
The steps that `allocator.c` takes over its free list: `scan_steps` in `my_malloc` and
`remove_steps` in `freelist_remove`, per call and over a measured run.
-/
import AllocSitter.LowerBound
import AllocSitter.StaleTags
import AllocSitter.MeasuredCounters

namespace AllocSitter

namespace FirstFit

open ByteMemory LinkedChain Tiling

variable {mmap : Mmap} {s s' s'' : State} {L L' : Layout Unit} {lists : Unit → List Block}
  {pre mid post : List Block} {n k a b header ptr q : Nat}

/-- At most `a` steps of a scan and `b` steps of removals between two states. -/
structure Cost (a b : Nat) (s s' : State) : Prop where
  scan : s'.stat.scanSteps ≤ s.stat.scanSteps + a
  remove : s'.stat.removeSteps ≤ s.stat.removeSteps + b

theorem Cost.refl (s : State) : Cost 0 0 s s := ⟨Nat.le_refl _, Nat.le_refl _⟩

theorem Cost.trans {a' b' : Nat} (h : Cost a b s s') (h' : Cost a' b' s' s'') :
    Cost (a + a') (b + b') s s'' := by
  obtain ⟨hscan, hremove⟩ := h
  obtain ⟨hscan', hremove'⟩ := h'
  exact ⟨by omega, by omega⟩

theorem Cost.mono {a' b' : Nat} (h : Cost a b s s') (ha : a ≤ a') (hb : b ≤ b') :
    Cost a' b' s s' :=
  ⟨Nat.le_trans h.scan (Nat.add_le_add_left ha _),
    Nat.le_trans h.remove (Nat.add_le_add_left hb _)⟩

/-- The bytes of the heap do not count. -/
theorem Cost.of_mem {m : Memory} (h : Cost a b { s with mem := m } s') : Cost a b s s' :=
  ⟨h.scan, h.remove⟩

/-- The free list is a chain of at most `n` blocks. -/
def ListWithin (n : Nat) (s : State) : Prop :=
  ∃ chain, Linked (nextFree s.mem) 0 (s.freeHead ()) chain ∧ chain.length ≤ n

theorem listWithin_of_held (h : Held theList s lists pre mid post) :
    ListWithin (lists ()).length s :=
  ⟨_, h.threaded.linked (), by simp [Layout.chains]⟩

theorem listWithin_of_represents (h : Represents theList s L) : ListWithin (L.lists ()).length s :=
  ⟨_, h.threaded.linked (), by simp [Layout.chains]⟩

theorem freelistRemove_cost (h : ListWithin n s) (hremove : freelistRemove s header = some s') :
    Cost 0 n s s' := by
  obtain ⟨chain, hlinked, hlength⟩ := h
  unfold freelistRemove at hremove
  split at hremove
  · exact absurd hremove (by simp)
  · next steps found hwalk =>
      have hsteps := walk_steps_le hlinked hwalk
      have hcount : ptrAdd s.stat.removeSteps steps ≤ s.stat.removeSteps + n := by
        unfold ptrAdd
        omega
      dsimp only at hremove
      split at hremove
      · rw [← Option.some.inj hremove]
        exact ⟨Nat.le_refl _, hcount⟩
      · next link =>
          rw [← Option.some.inj hremove]
          cases link with
          | head => exact ⟨Nat.le_refl _, hcount⟩
          | after node => exact ⟨Nat.le_refl _, hcount⟩

theorem freelistPush_cost : Cost 0 0 s (freelistPush s header ()) :=
  ⟨Nat.le_refl _, Nat.le_refl _⟩

theorem mergeRight_cost (h : ListWithin n s) (hmerge : mergeRight s header = some s') :
    Cost 0 n s s' := by
  rw [mergeRight_eq] at hmerge
  cases hright : rightRemoved s header with
  | none =>
      rw [hright] at hmerge
      rw [← Option.some.inj hmerge]
      exact (Cost.refl s).mono (Nat.le_refl _) (Nat.zero_le n)
  | some right =>
      rw [hright] at hmerge
      obtain ⟨s₁, hremove, rfl⟩ := Option.map_eq_some_iff.mp hmerge
      obtain ⟨hscan, hsteps⟩ := freelistRemove_cost h hremove
      exact ⟨hscan, hsteps⟩

theorem mergeLeft_cost (h : ListWithin n s) (hmerge : mergeLeft s header = some s') :
    Cost 0 n s s' := by
  rw [mergeLeft_eq] at hmerge
  cases hleft : leftRemoved s header with
  | none =>
      rw [hleft] at hmerge
      rw [← Option.some.inj hmerge]
      exact freelistPush_cost.mono (Nat.le_refl _) (Nat.zero_le n)
  | some left =>
      rw [hleft] at hmerge
      obtain ⟨s₁, hremove, rfl⟩ := Option.map_eq_some_iff.mp hmerge
      obtain ⟨hscan, hsteps⟩ := freelistRemove_cost h hremove
      exact ⟨hscan, hsteps⟩

theorem growInPlace_cost {oldSize newSize right : Nat} (h : ListWithin n s)
    (hgrow : growInPlace s ptr oldSize newSize right = some (s', q)) : Cost 0 n s s' := by
  obtain ⟨s₁, hremove, hgrow⟩ := Option.bind_eq_some_iff.mp hgrow
  obtain ⟨hscan, hsteps⟩ := freelistRemove_cost h hremove
  dsimp only at hgrow
  split at hgrow
  · obtain ⟨rfl, _⟩ := Prod.mk.inj (Option.some.inj hgrow)
    exact ⟨hscan, hsteps⟩
  · obtain ⟨rfl, _⟩ := Prod.mk.inj (Option.some.inj hgrow)
    exact ⟨hscan, hsteps⟩

theorem shrinkInPlace_cost (ptr oldSize newSize : Nat) :
    Cost 0 0 s (shrinkInPlace s ptr oldSize newSize).1 := by
  unfold shrinkInPlace
  dsimp only
  split
  · exact ⟨Nat.le_refl _, Nat.le_refl _⟩
  · exact Cost.refl s

section Requests

variable {need p : Nat}
  (hcase : MallocCase theList (fun _ stat => stat) mmap s L need s' p L')

include hcase

/-- A request passes each block of the list at most once. -/
theorem mallocCase_cost : Cost (L.lists ()).length 0 s s' := by
  have hscans : ∀ {steps : Nat} {stat : AllocStat}, s'.stat = stat →
      stat.scanSteps = ptrAdd s.stat.scanSteps steps →
      stat.removeSteps = s.stat.removeSteps → steps ≤ (L.lists ()).length →
      Cost (L.lists ()).length 0 s s' := by
    intro steps stat hstat hscan hremove hsteps
    rw [← hstat] at hscan hremove
    unfold ptrAdd at hscan
    exact ⟨by omega, by omega⟩
  cases hcase with
  | split _ _ _ _ hlist _ hstat _ =>
      refine hscans hstat rfl rfl ?_
      rw [hlist, List.length_append, List.length_cons]
      omega
  | whole _ _ hlist _ hstat _ =>
      refine hscans hstat rfl rfl ?_
      rw [hlist, List.length_append, List.length_cons]
      omega
  | extend _ _ _ _ hstat _ _ => exact hscans hstat rfl rfl (Nat.le_refl _)
  | fail _ _ hstat => exact hscans hstat rfl rfl (Nat.le_refl _)

theorem mallocCase_length_le : (L'.lists ()).length ≤ (L.lists ()).length := by
  cases hcase with
  | split _ _ _ _ hlist _ _ _ => simp [pushBlock, hlist, Nat.add_assoc]
  | whole _ _ hlist _ _ _ => simp [hlist]
  | extend => exact Nat.le_refl _
  | fail => exact Nat.le_refl _

end Requests

theorem myMalloc_cost (hsound : mmap.Sound) (h : Represents theList s L) {size : Nat}
    (hsize : size + 40 ≤ 2 ^ 64) (hsafe : RequestSafe theList mmap s size)
    (heq : myMalloc mmap s size = some (s', q)) : Cost (L.lists ()).length 0 s s' := by
  obtain ⟨s₁, p, L₁, hmalloc, hcase, _, _⟩ := myMalloc_spec hsound h hsize hsafe
  obtain ⟨rfl, rfl⟩ := Prod.mk.inj (Option.some.inj (hmalloc.symm.trans heq))
  exact mallocCase_cost hcase

theorem myCalloc_cost (hsound : mmap.Sound) (h : Represents theList s L) {nmemb size : Nat}
    (hsafe : Safe mmap s (.calloc nmemb size))
    (heq : myCalloc mmap s nmemb size = some (s', q)) : Cost (L.lists ()).length 0 s s' := by
  cases hrequest : callocRequest nmemb size with
  | none =>
      -- A product of zero, or one that does not fit: `my_malloc` is not asked.
      rw [myCalloc, callocWith_none hrequest] at heq
      obtain ⟨rfl, _⟩ := Prod.mk.inj (Option.some.inj heq)
      exact (Cost.refl s).mono (Nat.zero_le _) (Nat.le_refl _)
  | some n =>
      obtain ⟨hn, hreach⟩ := hsafe.1 n hrequest
      obtain ⟨s₁, p, L₁, m, hcalloc, hcase, _⟩ := myCalloc_spec hsound h hrequest hn hreach
      obtain ⟨rfl, _⟩ := Prod.mk.inj (Option.some.inj (hcalloc.symm.trans heq))
      obtain ⟨hscan, hremove⟩ := mallocCase_cost hcase
      exact ⟨hscan, hremove⟩

theorem RightCase.length_le {c c' : Block} {list list' post' : List Block}
    (h : RightCase c post list c' post' list') : list'.length ≤ list.length := by
  cases h with
  | alone => exact Nat.le_refl _
  | joined => exact List.length_erase_le

/-- `my_free` looks for two blocks at most. -/
theorem myFree_cost (h : Represents theList s L) {c : Block}
    (hc : c ∈ Layout.usedBlocks L.blocks) (hfree : myFree s c.payload = some s') :
    Cost 0 (2 * (L.lists ()).length) s s' := by
  obtain ⟨hrow, hused⟩ := Layout.mem_usedBlocks.mp hc
  obtain ⟨pre, post, hblocks⟩ := List.append_of_mem hrow
  have hheader := h.header_eq hrow
  have hptr := h.payload_ne_zero hc
  have hflag := (h.threaded.tagged c hrow).not_clear hused
  obtain ⟨hheld, _⟩ := (h.held hblocks hused).release hused
  obtain ⟨s₁, c₁, post', list₁, hright, hcase, hheld₁, _, _⟩ := mergeRight_spec hheld
  -- The header loses its flag first, which no counter sees.
  have hcost := (mergeRight_cost (listWithin_of_held hheld) hright).of_mem
  simp only [myFree, hptr, ↓reduceIte, hheader, hflag] at hfree
  rw [show c.release.addr = c.addr from rfl] at hright
  rw [hright] at hfree
  have hcost₁ := mergeLeft_cost (listWithin_of_held hheld₁) hfree
  have hlength := hcase.length_le
  exact (hcost.trans hcost₁).mono (Nat.le_refl _) (by omega)

/-- A block that moves costs a request and a release. -/
theorem moveBlock_cost (hsound : mmap.Sound) (h : Represents theList s L) {c : Block}
    {newSize : Nat} (hc : c ∈ Layout.usedBlocks L.blocks) (hmod : newSize % 16 = 0)
    (hlt : newSize + 40 ≤ 2 ^ 64) (hgrow : c.size < newSize)
    (hsafe : RequestSafe theList mmap s newSize)
    (hmove : moveBlock mmap s c.payload c.size newSize = some (s', q)) :
    Cost (L.lists ()).length (2 * (L.lists ()).length) s s' := by
  have hge := c.size_ge
  obtain ⟨hrow, hused⟩ := Layout.mem_usedBlocks.mp hc
  obtain ⟨pre, post, hblocks⟩ := List.append_of_mem hrow
  obtain ⟨_, hhigh, _, hcur, _⟩ := h.room.bounds hrow
  obtain ⟨s₁, p, L₁, hmalloc, hcase, _, _, hnew⟩ :=
    copied_spec h hblocks hused hsound hmod hlt hgrow hsafe
  have hcost := mallocCase_cost hcase
  simp only [moveBlock, hmalloc, Option.bind_eq_bind, Option.bind_some] at hmove
  by_cases hp : p = 0
  · rw [if_pos hp] at hmove
    obtain ⟨rfl, _⟩ := Prod.mk.inj (Option.some.inj hmove)
    exact hcost.mono (Nat.le_refl _) (Nat.zero_le _)
  · rw [if_neg hp] at hmove
    obtain ⟨u, rfl, _, _, hc₁, _, hrep, _⟩ := hnew hp
    have hlen : ptrSub c.size 8 = c.size - 8 := ptrSub_of_le (by omega) (by omega)
    rw [hlen] at hmove
    obtain ⟨s₂, hfree, hmove⟩ := Option.bind_eq_some_iff.mp hmove
    obtain ⟨rfl, _⟩ := Prod.mk.inj (Option.some.inj hmove)
    -- The list that the old block is freed into is the one the request left.
    have hcost₁ := (myFree_cost hrep hc₁ hfree).of_mem
    have hlength := mallocCase_length_le hcase
    exact (hcost.trans hcost₁).mono (Nat.le_refl _) (by omega)

/-- A resize in place takes the right neighbour off the list, if anything. -/
theorem resizeBlock_cost (hsound : mmap.Sound) (h : Represents theList s L) {c : Block}
    {newSize : Nat} (hc : c ∈ Layout.usedBlocks L.blocks) (hmod : newSize % 16 = 0)
    (hlt : newSize + 40 ≤ 2 ^ 64)
    (hsafe : moves s c.payload newSize = true → RequestSafe theList mmap s newSize)
    (hresize : resizeBlock mmap s c.payload newSize = some (s', q)) :
    Cost (L.lists ()).length (2 * (L.lists ()).length) s s' := by
  obtain ⟨hrow, hused⟩ := Layout.mem_usedBlocks.mp hc
  obtain ⟨pre, post, hblocks⟩ := List.append_of_mem hrow
  rw [resizeBlock_eq, h.header_eq hrow, (h.threaded.tagged c hrow).tagSize_head] at hresize
  dsimp only at hresize
  by_cases hmoves : moves s c.payload newSize = true
  · rw [if_pos hmoves] at hresize
    obtain ⟨hgrow, _⟩ := (moves_iff h hblocks hused).mp hmoves
    exact moveBlock_cost hsound h hc hmod hlt hgrow (hsafe hmoves) hresize
  · rw [if_neg hmoves] at hresize
    cases hright : growthRemoved s c.payload newSize with
    | none =>
        rw [hright] at hresize
        have hcost : Cost 0 0 s _ := shrinkInPlace_cost c.payload c.size newSize
        rw [Option.some.inj hresize] at hcost
        exact hcost.mono (Nat.zero_le _) (Nat.zero_le _)
    | some right =>
        rw [hright] at hresize
        exact (growInPlace_cost (listWithin_of_represents h) hresize).mono (Nat.zero_le _)
          (by omega)

theorem myRealloc_cost (hsound : mmap.Sound) (h : Represents theList s L) {size : Nat}
    (howned : L.Owned ptr) (hsafe : Safe mmap s (.realloc ptr size))
    (heq : myRealloc mmap s ptr size = some (s', q)) :
    Cost (L.lists ()).length (2 * (L.lists ()).length) s s' := by
  unfold myRealloc at heq
  rcases howned with rfl | ⟨c, hc, rfl⟩
  · rw [if_pos rfl] at heq
    obtain ⟨hn, hreach⟩ := hsafe.1 size (by simp [request])
    exact (myMalloc_cost hsound h hn hreach heq).mono (Nat.le_refl _) (Nat.zero_le _)
  · have hptr := h.payload_ne_zero hc
    rw [if_neg hptr] at heq
    by_cases hzero : size = 0
    · rw [if_pos hzero] at heq
      obtain ⟨s₁, hfree, heq⟩ := Option.bind_eq_some_iff.mp heq
      obtain ⟨rfl, _⟩ := Prod.mk.inj (Option.some.inj heq)
      exact (myFree_cost h hc hfree).mono (Nat.zero_le _) (Nat.le_refl _)
    · rw [if_neg hzero] at heq
      obtain ⟨_, hmod, _, _, hlt⟩ := reallocSize_rounds (hsafe.2 c.payload size rfl hptr)
      refine resizeBlock_cost hsound h hc hmod hlt (fun hmoves => ?_) heq
      exact (hsafe.1 (reallocSize size) (by simp [request, hptr, hzero, hmoves])).2

/-- The lines of calls that may take blocks off the list by way of `freelist_remove`. -/
def removingLines (trace : List Record) : Nat := linesOf .f trace + linesOf .r trace

theorem list_length (h : Represents theList s L) :
    (L.lists ()).length = s.stat.freelistLen := by
  rw [h.length, h.binned.freeCount_eq]
  simp

/-- What one call costs while there are at most `k` free blocks, by the line it writes. -/
theorem exec_cost (hsound : mmap.Sound) {w w' : Client Unit} {call : Call}
    (hinv : Inv theList w) (hadmits : Admits mmap w call) (hlength : w.heap.stat.freelistLen ≤ k)
    (hexec : w.exec (api mmap) call = some (w', q)) :
    Cost (k * Segregated.askingLines (record q call).toList)
      (2 * k * removingLines (record q call).toList) w.heap w'.heap := by
  obtain ⟨L, h, howns⟩ := hinv
  obtain ⟨hallows, hsafe⟩ := hadmits.safe
  rw [← list_length h] at hlength
  cases call with
  | malloc size =>
      obtain ⟨hn, hreach⟩ := hsafe.1 size rfl
      have heq := (Client.exec_malloc hexec).1
      rw [show Segregated.askingLines (record q (.malloc size)).toList = 1 from rfl, Nat.mul_one]
      exact (myMalloc_cost hsound h hn hreach heq).mono hlength (Nat.zero_le _)
  | calloc nmemb size =>
      have heq := (Client.exec_calloc hexec).1
      rw [show Segregated.askingLines (record q (.calloc nmemb size)).toList = 1 from rfl,
        Nat.mul_one]
      exact (myCalloc_cost hsound h hsafe heq).mono hlength (Nat.zero_le _)
  | free ptr =>
      obtain ⟨heq, _, _⟩ := Client.exec_free hexec
      rcases howns.owned hallows with rfl | ⟨c, hc, rfl⟩
      · -- Freeing `NULL` writes no line and touches nothing.
        rw [show (api mmap).free w.heap 0 = some w.heap from rfl] at heq
        rw [← Option.some.inj heq]
        exact (Cost.refl _).mono (Nat.zero_le _) (Nat.zero_le _)
      · have hline : record q (.free c.payload) = some (.f c.payload) := by
          simp [record, h.payload_ne_zero hc]
        rw [hline, show removingLines (some (Record.f c.payload)).toList = 1 from rfl, Nat.mul_one]
        exact (myFree_cost h hc heq).mono (Nat.zero_le _) (Nat.mul_le_mul_left 2 hlength)
  | realloc ptr size =>
      have heq := (Client.exec_realloc hexec).1
      rw [show Segregated.askingLines (record q (.realloc ptr size)).toList = 1 from rfl,
        show removingLines (record q (.realloc ptr size)).toList = 1 from rfl, Nat.mul_one,
        Nat.mul_one]
      exact (myRealloc_cost hsound h (howns.owned hallows.1) hsafe heq).mono hlength
        (Nat.mul_le_mul_left 2 hlength)
  | write addr byte =>
      obtain ⟨rfl, _⟩ := Prod.mk.inj (Option.some.inj hexec)
      exact ⟨Nat.le_add_right _ _, Nat.le_add_right _ _⟩
  | statReset =>
      -- The counters start again at zero.
      obtain ⟨rfl, _⟩ := Prod.mk.inj (Option.some.inj hexec)
      exact ⟨Nat.zero_le _, Nat.zero_le _⟩

theorem removingLines_append (trace written : List Record) :
    removingLines (trace ++ written) = removingLines trace + removingLines written := by
  unfold removingLines linesOf
  simp only [List.countP_append]
  omega

theorem askingLines_append (trace written : List Record) :
    Segregated.askingLines (trace ++ written) =
      Segregated.askingLines trace + Segregated.askingLines written := by
  unfold Segregated.askingLines linesOf
  simp only [List.countP_append]
  omega

/-- The counters of the searches against the lines of the trace. -/
structure Searched (k : Nat) (trace : List Record) (s : State) : Prop where
  scans : s.stat.scanSteps ≤ k * Segregated.askingLines trace
  removals : s.stat.removeSteps ≤ 2 * k * removingLines trace

/-- One call through its wrapper. -/
theorem Searched.step {trace written : List Record} (h : Searched k trace s)
    (hcost : Cost (k * Segregated.askingLines written) (2 * k * removingLines written) s s') :
    Searched k (trace ++ written) s' := by
  obtain ⟨hscans, hremovals⟩ := h
  obtain ⟨hscan, hremove⟩ := hcost
  constructor
  · rw [askingLines_append, Nat.mul_add]
    omega
  · rw [removingLines_append, Nat.mul_add]
    omega

/-- As long as there are at most `k` free blocks, a call that asks for memory passes at most
`k` of them, and a call that gives memory back at most `2 * k`: `my_free` looks for both
neighbours.  Lines of `realloc` count on both sides, since a block that moves is freed; the
driver divides `remove_steps` by the calls of `free` alone. -/
theorem search_steps_bound (hsound : mmap.Sound) {start b : Bench Unit}
    (hreach : Runs.Reach (Client.step (api mmap)) (Admits mmap) (Client.initial Unit)
      start.client)
    (hrun : Runs.Reach (Bench.step (api mmap))
      (fun b call => Admits mmap b.client call ∧ b.client.heap.stat.freelistLen ≤ k)
      (start.measure (api mmap) true) b) :
    ∃ trace, b.trace = some trace ∧ Searched k trace b.client.heap := by
  have hsearched : Runs.Reach (Client.step (api mmap)) (Admits mmap) (Client.initial Unit)
      b.client ∧ ∃ trace, b.trace = some trace ∧ Searched k trace b.client.heap := by
    induction hrun with
    | start =>
        refine ⟨hreach.next (show Admits mmap start.client .statReset from
          ⟨⟨trivial, trivial⟩, fun n hn => by simp [request] at hn⟩) rfl, [], rfl, ?_⟩
        exact ⟨Nat.zero_le _, Nat.zero_le _⟩
    | next _ hok hstep ih =>
        obtain ⟨hbefore, trace, hwritten, hsearched⟩ := ih
        obtain ⟨⟨w', q⟩, hexec, rfl⟩ := Option.map_eq_some_iff.mp hstep
        have hcost := exec_cost hsound (reach_inv hsound hbefore) hok.1 hok.2 hexec
        refine ⟨hbefore.next hok.1 (Client.step_of_exec hexec), _, ?_, hsearched.step hcost⟩
        rw [hwritten]
        rfl
  exact hsearched.2

/-- A block between two free ones, of which the first of the row was pushed last: both are
found, the one on the right behind the other. -/
theorem search_steps_bound_example :
    ∃ w, Runs.run (Client.step (api lowRegion)) (Client.initial Unit)
        [.malloc 100, .malloc 40, .malloc 100, .malloc 40, .free 4272, .realloc 4112 40] =
          some w ∧
      ∃ b, Runs.run (Bench.step (api lowRegion)) (Bench.measure (api lowRegion) true ⟨w, {}, none⟩)
          [.free 4224, .malloc 300] = some b ∧
        (b.client.heap.stat.scanSteps, b.client.heap.stat.removeSteps) = (1, 3) ∧
        ∃ trace, b.trace = some trace ∧ Searched 2 trace b.client.heap := by
  have hfacts : (Runs.run (Client.step (api lowRegion)) (Client.initial Unit)
      [.malloc 100, .malloc 40, .malloc 100, .malloc 40, .free 4272, .realloc 4112 40]).map
        (fun w => (decide (Runs.RunOk (Bench.step (api lowRegion))
          (fun b call => Admits lowRegion b.client call ∧ b.client.heap.stat.freelistLen ≤ 2)
          (Bench.measure (api lowRegion) true ⟨w, {}, none⟩) [.free 4224, .malloc 300]),
        (Runs.run (Bench.step (api lowRegion)) (Bench.measure (api lowRegion) true ⟨w, {}, none⟩)
          [.free 4224, .malloc 300]).map fun b =>
            (b.client.heap.stat.scanSteps, b.client.heap.stat.removeSteps))) =
      some (true, some (1, 3)) := by decide +kernel
  obtain ⟨w, hstart, hw⟩ := Option.map_eq_some_iff.mp hfacts
  obtain ⟨hok, hcounters⟩ := Prod.mk.inj hw
  obtain ⟨b, hrun, hsteps⟩ := Option.map_eq_some_iff.mp hcounters
  have hreach : Runs.Reach (Client.step (api lowRegion)) (Admits lowRegion)
      (Client.initial Unit) w := .of_run .start (by decide +kernel) hstart
  exact ⟨w, hstart, b, hrun, hsteps, search_steps_bound lowRegion_sound hreach
    (.of_run .start (of_decide_eq_true hok) hrun)⟩

end FirstFit

end AllocSitter
