/-
The counters of `segregated_allocator.c` after the measured part of a benchmark, computed from
its trace: `real_bytes`, `remove_steps` and `scan_steps`, and the growth of the arena.
-/
import AllocSitter.RequestStatistics
import AllocSitter.SegregatedSteps

namespace AllocSitter

namespace Segregated

open ByteMemory LinkedChain Tiling

variable {mmap : Mmap} {w w' : Client Bin} {s s' : State} {L L' : Layout Bin} {call : Call}
  {q : Nat} {d d' : Driver}

/-- The bytes in front of the first block, if it was made between the two states. -/
def firstPadding (s s' : State) : Nat := if s.heapLo = 0 ∧ s'.heapLo ≠ 0 then 12 else 0

theorem heapLo_eq_zero_iff (h : Represents sizeToBin s L) : s.heapLo = 0 ↔ L.blocks = [] := by
  constructor
  · intro hlo
    by_contra hne
    have hbase := h.room.base_ne_zero hne
    have heq := (h.arena.tiles hne).1
    omega
  · exact fun hempty => (h.arena.untouched hempty).1

theorem padding_eq_zero {L : Layout Bin} (hne : L.blocks ≠ []) : padding L = 0 := if_neg hne

theorem liveAdd_counters (n : Nat) (stat : AllocStat) :
    (liveAdd n stat).realBytes = stat.realBytes ∧
      (liveAdd n stat).removeSteps = stat.removeSteps ∧
      (liveAdd n stat).scanSteps = stat.scanSteps := by
  unfold liveAdd
  dsimp only
  split
  · exact ⟨rfl, rfl, rfl⟩
  · exact ⟨rfl, rfl, rfl⟩

/-- What a call counts: the bytes that it was granted with the padding before them, steps
over free blocks, and an arena that grows by no more. -/
structure Counted (s : State) (L : Layout Bin) (granted : Nat) (s' : State) (L' : Layout Bin) :
    Prop where
  real : ∀ n, s.stat.realBytes = n % 2 ^ 64 → s'.stat.realBytes = (n + granted) % 2 ^ 64
  removed : s'.stat.removeSteps = s.stat.removeSteps
  scanned : s'.stat.scanSteps ≤ s.stat.scanSteps + Layout.freeCount L.blocks
  grown : s'.arenaCur - s'.arenaBase ≤ s.arenaCur - s.arenaBase + granted
  blocks : L'.blocks = [] ↔ L.blocks = [] ∧ granted = 0

theorem list_length_le (h : Represents sizeToBin s L) (i : Bin) :
    (L.lists i).length ≤ Layout.freeCount L.blocks := by
  rw [h.binned.freeCount_eq]
  exact Finset.single_le_sum (f := fun i => (L.lists i).length) (fun j _ => Nat.zero_le _)
    (Finset.mem_univ i)

/-- The counters after a request that was granted. -/
theorem counters_granted {need granted steps len : Nat} {stat : AllocStat}
    (hstat : stat = { liveAdd need (addRealBytes (addScanSteps s steps).stat granted) with
      freelistLen := len }) :
    (∀ n, s.stat.realBytes = n % 2 ^ 64 → stat.realBytes = (n + granted) % 2 ^ 64) ∧
      stat.removeSteps = s.stat.removeSteps ∧ stat.scanSteps ≤ s.stat.scanSteps + steps := by
  obtain ⟨hreal, hremoved, hscanned⟩ :=
    liveAdd_counters need (addRealBytes (addScanSteps s steps).stat granted)
  rw [hstat]
  refine ⟨fun n hn => ?_, hremoved, ?_⟩
  · change (liveAdd need _).realBytes = _
    rw [hreal]
    change ptrAdd s.stat.realBytes granted = _
    unfold ptrAdd
    omega
  · change (liveAdd need _).scanSteps ≤ _
    rw [hscanned]
    change ptrAdd s.stat.scanSteps steps ≤ _
    unfold ptrAdd
    omega

theorem mallocCase_counted (h : Represents sizeToBin s L) {need p : Nat}
    (hcase : MallocCase sizeToBin liveAdd mmap s L need s' p L') :
    Counted s L (if p = 0 then 0 else need + padding L) s' L' := by
  have hlength := list_length_le h (sizeToBin need)
  cases hcase with
  | split hge hmod hfit hblocks hlist hfront hstat hsame =>
      have hne : L.blocks ≠ [] := by simp [hblocks]
      obtain ⟨hreal, hremoved, hscanned⟩ := counters_granted hstat
      rw [if_neg (by omega), padding_eq_zero hne, Nat.add_zero]
      simp only [hlist, List.length_append, List.length_cons] at hlength
      refine ⟨hreal, hremoved, by omega, ?_, ?_⟩
      · rw [hsame.arenaCur, hsame.arenaBase]
        omega
      · simp [hne]
  | whole hsize hblocks hlist hfront hstat hsame =>
      have hne : L.blocks ≠ [] := by simp [hblocks]
      obtain ⟨hreal, hremoved, hscanned⟩ := counters_granted hstat
      rw [if_neg (by omega), padding_eq_zero hne, Nat.add_zero]
      simp only [hlist, List.length_append, List.length_cons] at hlength
      refine ⟨hreal, hremoved, by omega, ?_, ?_⟩
      · rw [hsame.arenaCur, hsame.arenaBase]
        omega
      · simp [hne]
  | extend hge hmod hmiss htop hstat hcur hlo =>
      obtain ⟨hreal, hremoved, hscanned⟩ := counters_granted hstat
      rw [if_neg (by omega)]
      refine ⟨hreal, hremoved, by omega, ?_, ?_⟩
      · rcases htop with ⟨_, htop, hbase⟩ | ⟨_, _, htop⟩
        · omega
        · omega
      · have hpos : need + padding L ≠ 0 := by omega
        exact ⟨fun hnil => absurd hnil (by simp), fun hnil => absurd hnil.2 hpos⟩
  | fail hmiss hwhy hstat =>
      have hscan : s'.stat.scanSteps =
          ptrAdd s.stat.scanSteps (L.lists (sizeToBin need)).length :=
        congrArg AllocStat.scanSteps hstat
      rw [if_pos rfl]
      refine ⟨fun n hn => ?_, ?_, ?_, ?_, by simp⟩
      · rw [hstat]
        exact hn
      · rw [hstat]
        rfl
      · rw [hscan]
        unfold ptrAdd
        omega
      · rcases hwhy with ⟨_, _, rfl⟩ | ⟨_, _, hcur⟩
        · exact Nat.le_refl _
        · omega

/-- A free counts nothing of these. -/
theorem myFree_counters (s : State) (ptr : Nat) :
    (myFree s ptr).stat.realBytes = s.stat.realBytes ∧
      (myFree s ptr).stat.removeSteps = s.stat.removeSteps ∧
      (myFree s ptr).stat.scanSteps = s.stat.scanSteps ∧ SameArena s (myFree s ptr) := by
  unfold myFree
  split
  · exact ⟨rfl, rfl, rfl, SameArena.refl s⟩
  · dsimp only
    split
    · exact ⟨rfl, rfl, rfl, SameArena.refl s⟩
    · exact ⟨rfl, rfl, rfl, (SameArena.of_mem_stat s _ _).trans (freelistPush_sameArena _ _ _)⟩

theorem Requests.counted (h : Represents sizeToBin s L) {n : Option Nat}
    (hrequests : Requests mmap s L n s' q L') :
    Counted s L (if q = 0 then 0 else n.elim 0 chunkNeed + padding L) s' L' := by
  cases hrequests with
  | skip => exact ⟨fun _ hn => hn, rfl, Nat.le_add_right _ _, Nat.le_refl _, by simp⟩
  | ask hcase => exact mallocCase_counted h hcase

/-- What a call counts, from its parts. -/
theorem Parts.counted (h : Represents sizeToBin s L) {n : Option Nat}
    (hparts : Parts mmap s L n s' q L') :
    Counted s L (if q = 0 then 0 else n.elim 0 chunkNeed + padding L) s' L' := by
  obtain ⟨⟨s₁, m, L₁, hrequests, hfrees⟩, _⟩ := hparts
  have hcounted := hrequests.counted h
  cases hfrees with
  | skip => exact ⟨hcounted.real, hcounted.removed, hcounted.scanned, hcounted.grown, hcounted.blocks⟩
  | block hblocks hused =>
      obtain ⟨hreal, hremoved, hscanned, hsame⟩ := myFree_counters { s₁ with mem := m } _
      refine ⟨fun n hn => hreal.trans (hcounted.real n hn), hremoved.trans hcounted.removed, ?_,
        ?_, ?_⟩
      · rw [hscanned]
        exact hcounted.scanned
      · rw [hsame.arenaCur, hsame.arenaBase]
        exact hcounted.grown
      · rw [← hcounted.blocks, hblocks]
        simp

/-- Without a request nothing is scanned. -/
theorem Parts.unscanned (hparts : Parts mmap s L none s' q L') :
    s'.stat.scanSteps = s.stat.scanSteps := by
  obtain ⟨⟨s₁, m, L₁, hrequests, hfrees⟩, _⟩ := hparts
  cases hrequests with
  | skip =>
      cases hfrees with
      | skip => rfl
      | block => exact (myFree_counters { s with mem := m } _).2.2.1

/-- Without a request nothing is returned. -/
theorem Parts.null_of_none (hparts : Parts mmap s L none s' q L') : q = 0 := by
  obtain ⟨⟨s₁, m, L₁, hrequests, _⟩, _⟩ := hparts
  cases hrequests with
  | skip => rfl

/-- The line of a call that was granted has the size of its request. -/
theorem servedSizes_record (hwithin : call.Within (2 ^ 63) (2 ^ 63))
    (hnone : request call = none → q = 0) :
    servedSizes (record q call).toList = if q = 0 then [] else (request call).toList := by
  cases call with
  | malloc size =>
      by_cases hq : q = 0
      · simp [record, servedSizes, Record.added, hq]
      · simp [record, servedSizes, Record.added, hq, request]
  | calloc nmemb size =>
      by_cases hq : q = 0
      · simp [record, servedSizes, Record.added, hq]
      · obtain ⟨n, hn⟩ := Option.ne_none_iff_exists'.mp fun heq => hq (hnone heq)
        have hlt : nmemb * size < 2 ^ 64 := Nat.lt_of_le_of_lt hwithin (by decide)
        have heq : n = nmemb * size := (callocRequest_eq hn).1
        rw [hn, if_neg hq]
        simpa [record, servedSizes, Record.added, hq, heq] using hlt
  | realloc ptr size =>
      by_cases hq : q = 0
      · simp [record, servedSizes, Record.added, hq]
      · have hrequest : request (.realloc ptr size) = some size := by
          by_contra hne
          apply hq
          apply hnone
          by_cases hfrees : ptr ≠ 0 ∧ size = 0
          · exact if_pos hfrees
          · exact absurd (if_neg hfrees) hne
        rw [hrequest, if_neg hq]
        simp [record, servedSizes, Record.added, hq]
  | free ptr =>
      have hq := hnone rfl
      by_cases hptr : ptr = 0
      · simp [record, servedSizes, hptr, hq]
      · simp [record, servedSizes, Record.added, hptr, hq]
  | write addr byte => simp [record, servedSizes, hnone rfl]
  | statReset => simp [record, servedSizes, hnone rfl]

/-- The chunks of all requests that were granted. -/
def grantedBytes (trace : List Record) : Nat := ((servedSizes trace).map chunkOf).sum

theorem grantedBytes_step (trace : List Record) (hadmits : Admits mmap w call)
    (hnone : request call = none → q = 0) :
    grantedBytes (trace ++ (record q call).toList) =
      grantedBytes trace + if q = 0 then 0 else (request call).elim 0 chunkNeed := by
  have happend : servedSizes (trace ++ (record q call).toList) =
      servedSizes trace ++ servedSizes (record q call).toList := List.filterMap_append
  rw [grantedBytes, happend, servedSizes_record hadmits.1.2 hnone, List.map_append,
    List.sum_append, grantedBytes]
  by_cases hq : q = 0
  · simp [hq]
  · cases hrequest : request call with
    | none => exact absurd (hnone hrequest) hq
    | some n =>
        obtain ⟨hn, _⟩ := hadmits.safe.2 n hrequest
        have hchunk : chunkOf n = chunkNeed n := by
          have hmod : (n + 4 + 4 + 15) % 2 ^ 64 = n + 8 + 15 := by omega
          change tagSize (n + 8 + 15) = tagSize ((n + 4 + 4 + 15) % 2 ^ 64)
          rw [hmod]
        simp [hq, hchunk]

/-- The counters since the statistics were reset in the state `s₀`. -/
structure Measured (s₀ : State) (d : Driver) : Prop where
  real : d.client.heap.stat.realBytes =
    (grantedBytes d.trace + firstPadding s₀ d.client.heap) % 2 ^ 64
  removed : d.client.heap.stat.removeSteps = 0
  grown : arenaUsedBytes d.client.heap ≤
    arenaUsedBytes s₀ + grantedBytes d.trace + firstPadding s₀ d.client.heap
  begun : s₀.heapLo ≠ 0 → d.client.heap.heapLo ≠ 0

/-- One call of the measured part. -/
theorem Measured.step (hsound : mmap.Sound) {s₀ : State} (h : Measured s₀ d)
    (hinv : Inv sizeToBin d.client) (hcall : call ≠ .statReset)
    (hadmits : Admits mmap d.client call) (hstep : d.step mmap call = some d') :
    Measured s₀ d' := by
  obtain ⟨⟨w', q⟩, hexec, rfl⟩ := Option.map_eq_some_iff.mp hstep
  obtain ⟨L, hrep, howns⟩ := hinv
  obtain ⟨L', hparts⟩ := exec_parts hsound hrep howns hadmits hcall hexec
  have hnone : request call = none → q = 0 := fun heq => (heq ▸ hparts).null_of_none
  have hcounted := hparts.counted hrep
  have hgranted := grantedBytes_step d.trace hadmits hnone
  have hbefore := heapLo_eq_zero_iff hrep
  have hafter := heapLo_eq_zero_iff hparts.represents
  have hblocks := hcounted.blocks
  have hbegun := h.begun
  -- The padding is made with the first block, and the bottom of the heap stays.
  have hpadding : firstPadding s₀ w'.heap =
      firstPadding s₀ d.client.heap + if q = 0 then 0 else padding L := by
    by_cases hempty : L.blocks = []
    · have hlo := hbefore.mpr hempty
      have hlo₀ : s₀.heapLo = 0 := by
        by_contra hne
        exact hbegun hne hlo
      have hpad : padding L = 12 := if_pos hempty
      by_cases hq : q = 0
      · have hlo' : w'.heap.heapLo = 0 := hafter.mpr (hblocks.mpr ⟨hempty, if_pos hq⟩)
        simp [firstPadding, hlo, hlo', hq]
      · have hlo' : w'.heap.heapLo ≠ 0 := by
          intro heq
          have hnothing := (hblocks.mp (hafter.mp heq)).2
          rw [if_neg hq] at hnothing
          omega
        simp [firstPadding, hlo, hlo₀, hlo', hq, hpad]
    · have hlo : d.client.heap.heapLo ≠ 0 := fun heq => hempty (hbefore.mp heq)
      have hlo' : w'.heap.heapLo ≠ 0 := fun heq => hempty (hblocks.mp (hafter.mp heq)).1
      simp [firstPadding, hlo, hlo', padding_eq_zero hempty]
  have hsum : grantedBytes (d.trace ++ (record q call).toList) + firstPadding s₀ w'.heap =
      grantedBytes d.trace + firstPadding s₀ d.client.heap +
        if q = 0 then 0 else (request call).elim 0 chunkNeed + padding L := by
    rw [hgranted, hpadding]
    by_cases hq : q = 0
    · simp only [hq, ↓reduceIte, Nat.add_zero]
    · simp only [hq, ↓reduceIte]
      omega
  refine ⟨?_, hcounted.removed.trans h.removed, ?_, ?_⟩
  · rw [hsum]
    exact hcounted.real _ h.real
  · have hgrown := h.grown
    have hmore := hcounted.grown
    rw [arenaUsedBytes_eq hparts.represents]
    rw [arenaUsedBytes_eq hrep] at hgrown
    dsimp only
    omega
  · intro hne heq
    exact hbegun hne (hbefore.mpr (hblocks.mp (hafter.mp heq)).1)

/-- The reset of the statistics is an admitted call. -/
theorem reach_reset
    (hreach : Runs.Reach (Client.step (api mmap)) (Admits mmap) (Client.initial Bin) w) :
    Runs.Reach (Client.step (api mmap)) (Admits mmap) (Client.initial Bin)
      ⟨allocStatReset w.heap, w.live⟩ :=
  hreach.next (show Admits mmap w .statReset from ⟨⟨trivial, trivial⟩, fun n hn => by
    simp [request] at hn⟩) rfl

/-- The counters of the allocator after the measured part, from the trace: `real_bytes` is
the sum of the chunks of the granted requests, and 12 more if the arena got its first block,
the arena has grown by no more, and nothing was ever taken out of the middle of a list. -/
theorem counters_of_trace (hsound : mmap.Sound)
    (hreach : Runs.Reach (Client.step (api mmap)) (Admits mmap) (Client.initial Bin) w)
    (hrun : Runs.Reach (Driver.step mmap)
      (fun d call => call ≠ .statReset ∧ Admits mmap d.client call) (Driver.measured w) d) :
    Measured w.heap d := by
  have hreset := reach_reset hreach
  induction hrun with
  | start =>
      refine ⟨?_, rfl, Nat.le_add_right _ _, id⟩
      have hpadding : firstPadding w.heap (allocStatReset w.heap) = 0 :=
        if_neg fun h => h.2 h.1
      change 0 = (0 + firstPadding w.heap (allocStatReset w.heap)) % 2 ^ 64
      rw [hpadding]
      rfl
  | next hearlier hok hstep ih =>
      have hinv := reach_inv hsound (client_reach (fun _ _ hok => hok.2) hreset hearlier)
      exact ih.step hsound hinv hok.1 hok.2 hstep

/-- A block is live already when the measured part begins, so that no padding is made. -/
theorem counters_of_trace_example :
    ∃ w, Runs.run (Client.step (api lowRegion)) (Client.initial Bin) [.malloc 100] = some w ∧
      ∃ d, Runs.run (Driver.step lowRegion) (Driver.measured w)
          [.realloc 4112 200, .malloc 20, .free 4224, .malloc 90] = some d ∧
        grantedBytes d.trace = 352 ∧ firstPadding w.heap d.client.heap = 0 ∧
        Measured w.heap d := by
  have hfacts : (Runs.run (Client.step (api lowRegion)) (Client.initial Bin)
      [.malloc 100]).map (fun w => (decide (Runs.RunOk (Driver.step lowRegion)
          (fun d call => call ≠ .statReset ∧ Admits lowRegion d.client call)
          (Driver.measured w) [.realloc 4112 200, .malloc 20, .free 4224, .malloc 90]),
        (Runs.run (Driver.step lowRegion) (Driver.measured w)
          [.realloc 4112 200, .malloc 20, .free 4224, .malloc 90]).map fun d =>
            (grantedBytes d.trace, firstPadding w.heap d.client.heap))) =
      some (true, some (352, 0)) := by decide +kernel
  obtain ⟨w, hstart, hw⟩ := Option.map_eq_some_iff.mp hfacts
  obtain ⟨hok, hcounters⟩ := Prod.mk.inj hw
  obtain ⟨d, hrun, hd⟩ := Option.map_eq_some_iff.mp hcounters
  obtain ⟨hgranted, hpadding⟩ := Prod.mk.inj hd
  have hreach : Runs.Reach (Client.step (api lowRegion)) (Admits lowRegion)
      (Client.initial Bin) w := .of_run .start (by decide +kernel) hstart
  exact ⟨w, hstart, d, hrun, hgranted, hpadding,
    counters_of_trace lowRegion_sound hreach (.of_run .start (of_decide_eq_true hok) hrun)⟩

section Scans

/-- The lines of calls that ask for memory. -/
def askingLines (trace : List Record) : Nat :=
  linesOf .m trace + linesOf .c trace + linesOf .r trace

theorem askingLines_step (trace : List Record) (call : Call) (q : Nat) :
    askingLines trace ≤ askingLines (trace ++ (record q call).toList) ∧
      (request call ≠ none →
        askingLines trace + 1 ≤ askingLines (trace ++ (record q call).toList)) := by
  unfold askingLines
  cases call with
  | malloc size =>
      simp only [record, Option.toList_some, linesOf_snoc, Record.kind, ↓reduceIte]
      constructor
      · omega
      · intro _
        omega
  | calloc nmemb size =>
      simp only [record, Option.toList_some, linesOf_snoc, Record.kind, ↓reduceIte]
      constructor
      · omega
      · intro _
        omega
  | realloc ptr size =>
      simp only [record, Option.toList_some, linesOf_snoc, Record.kind, ↓reduceIte]
      constructor
      · omega
      · intro _
        omega
  | free ptr =>
      refine ⟨?_, fun hne => absurd rfl hne⟩
      by_cases hptr : ptr = 0
      · simp [record, hptr]
      · simp [record, hptr, linesOf_snoc, Record.kind]
  | write addr byte => exact ⟨by simp [record], fun hne => absurd rfl hne⟩
  | statReset => exact ⟨by simp [record], fun hne => absurd rfl hne⟩

/-- The scan of one call. -/
theorem scan_step (hsound : mmap.Sound) {k : Nat} (hinv : Inv sizeToBin d.client)
    (hcall : call ≠ .statReset) (hadmits : Admits mmap d.client call)
    (hlength : d.client.heap.stat.freelistLen ≤ k)
    (hbound : d.client.heap.stat.scanSteps ≤ k * askingLines d.trace)
    (hstep : d.step mmap call = some d') :
    d'.client.heap.stat.scanSteps ≤ k * askingLines d'.trace := by
  obtain ⟨L, hrep, howns⟩ := hinv
  obtain ⟨⟨w', q⟩, hexec, rfl⟩ := Option.map_eq_some_iff.mp hstep
  obtain ⟨L', hparts⟩ := exec_parts hsound hrep howns hadmits hcall hexec
  obtain ⟨hlines, hasks⟩ := askingLines_step d.trace call q
  by_cases hrequest : request call = none
  · calc w'.heap.stat.scanSteps
        = d.client.heap.stat.scanSteps := (hrequest ▸ hparts).unscanned
      _ ≤ k * askingLines d.trace := hbound
      _ ≤ k * askingLines (d.trace ++ (record q call).toList) := Nat.mul_le_mul_left k hlines
  · have hscanned := (hparts.counted hrep).scanned
    rw [← hrep.length] at hscanned
    calc w'.heap.stat.scanSteps
        ≤ d.client.heap.stat.scanSteps + d.client.heap.stat.freelistLen := hscanned
      _ ≤ k * askingLines d.trace + k := Nat.add_le_add hbound hlength
      _ = k * (askingLines d.trace + 1) := (Nat.mul_succ k _).symm
      _ ≤ k * askingLines (d.trace ++ (record q call).toList) :=
        Nat.mul_le_mul_left k (hasks hrequest)

/-- As long as there are at most `k` free blocks, the calls that ask for memory take at most
`k` steps of a scan on average. -/
theorem scan_steps_bound (hsound : mmap.Sound) {k : Nat}
    (hreach : Runs.Reach (Client.step (api mmap)) (Admits mmap) (Client.initial Bin) w)
    (hrun : Runs.Reach (Driver.step mmap)
      (fun d call => call ≠ .statReset ∧ Admits mmap d.client call ∧
        d.client.heap.stat.freelistLen ≤ k) (Driver.measured w) d) :
    d.client.heap.stat.scanSteps ≤ k * askingLines d.trace := by
  have hreset := reach_reset hreach
  induction hrun with
  | start => exact Nat.zero_le _
  | next hearlier hok hstep ih =>
      have hinv := reach_inv hsound (client_reach (fun _ _ hok => hok.2.1) hreset hearlier)
      exact scan_step hsound hinv hok.1 hok.2.1 hok.2.2 ih hstep

/-- Two free blocks of one class, of which the second one is found. -/
theorem scan_steps_bound_example :
    ∃ w, Runs.run (Client.step (api lowRegion)) (Client.initial Bin)
        [.malloc 200, .malloc 230, .free 4320, .free 4112] = some w ∧
      ∃ d, Runs.run (Driver.step lowRegion) (Driver.measured w) [.malloc 220] = some d ∧
        d.client.heap.stat.scanSteps = 2 ∧
        d.client.heap.stat.scanSteps ≤ 2 * askingLines d.trace := by
  have hfacts : (Runs.run (Client.step (api lowRegion)) (Client.initial Bin)
      [.malloc 200, .malloc 230, .free 4320, .free 4112]).map
        (fun w => (decide (Runs.RunOk (Driver.step lowRegion)
          (fun d call => call ≠ .statReset ∧ Admits lowRegion d.client call ∧
            d.client.heap.stat.freelistLen ≤ 2) (Driver.measured w) [.malloc 220]),
        (Runs.run (Driver.step lowRegion) (Driver.measured w) [.malloc 220]).map fun d =>
            d.client.heap.stat.scanSteps)) =
      some (true, some 2) := by decide +kernel
  obtain ⟨w, hstart, hw⟩ := Option.map_eq_some_iff.mp hfacts
  obtain ⟨hok, hcounters⟩ := Prod.mk.inj hw
  obtain ⟨d, hrun, hsteps⟩ := Option.map_eq_some_iff.mp hcounters
  have hreach : Runs.Reach (Client.step (api lowRegion)) (Admits lowRegion)
      (Client.initial Bin) w := .of_run .start (by decide +kernel) hstart
  exact ⟨w, hstart, d, hrun, hsteps,
    scan_steps_bound lowRegion_sound hreach (.of_run .start (of_decide_eq_true hok) hrun)⟩

end Scans

end Segregated

end AllocSitter
