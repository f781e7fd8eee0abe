/-
What `check_invariant` says of the heaps that calls lead to.  It reads nothing but blocks,
and it stops only for a first request that has failed or for more free blocks than its array
holds.
-/
import AllocSitter.FailedCalls

namespace AllocSitter

open ByteMemory LinkedChain Tiling

variable {ι : Type}

/-- How `check_invariant` ends on a heap that is as it should be.  The walk starts at `NULL`
where `heap_hi` has been assigned and `heap_lo` has not. -/
def outcome (s : Globals ι) : Check Unit :=
  if s.heapHi = 0 then .ok ()
  else if s.heapLo = 0 then .error (.badRead 0)
  else if s.stat.freelistLen ≤ maxNodes then .ok ()
  else .error (.failed .room)

section Collect

variable {read : Reader} {m : Memory} {blocks : List Block} {heapHi : Nat}

theorem collect_no_room {fuel p used tag : Nat} {free : List Nat} (hp : p < heapHi)
    (hblock : checkBlock read heapHi p = .ok tag) (hclear : tag % 2 = 0)
    (hroom : ¬ free.length < maxNodes) :
    collect read heapHi (fuel + 1) p free used = .error (.failed .room) := by
  simp only [collect, hp, ↓reduceIte, hblock, bind, Except.bind, hclear, require, hroom]

/-- More free blocks than the array holds stop the walk. -/
theorem collect_outgrown {fuel lo used : Nat} {free : List Nat}
    (hcovers : Covers read m blocks) (htagged : ∀ b ∈ blocks, b.Tagged m)
    (htiles : Tiles Block.addr Block.size lo blocks heapHi) (hhi : heapHi < 2 ^ 64)
    (hfull : free.length ≤ maxNodes)
    (hmore : maxNodes < free.length + Layout.freeCount blocks)
    (hfuel : blocks.length < fuel) :
    collect read heapHi fuel lo free used = .error (.failed .room) := by
  induction blocks generalizing fuel lo used free with
  | nil => simp [Layout.freeCount] at hmore; omega
  | cons b rest ih =>
      obtain ⟨fuel, rfl⟩ : ∃ n, fuel = n + 1 := ⟨fuel - 1, by simp at hfuel; omega⟩
      obtain ⟨rfl, htiles⟩ := htiles
      have hle := htiles.le
      have hge := b.size_ge
      have htag := htagged b List.mem_cons_self
      have hblock := checkBlock_passes hcovers List.mem_cons_self htag hle hhi
      have hnext : ptrAdd b.addr b.size = b.addr + b.size := ptrAdd_of_lt (by omega)
      have hflag := htag.flag_head
      have hcovers' : Covers read m rest := fun c hc => hcovers c (List.mem_cons_of_mem b hc)
      have htagged' : ∀ c ∈ rest, c.Tagged m :=
        fun c hc => htagged c (List.mem_cons_of_mem b hc)
      have hfuel' : rest.length < fuel := by simpa using hfuel
      cases hb : b.used with
      | false =>
          have hcount : Layout.freeCount (b :: rest) = Layout.freeCount rest + 1 := by
            simp [Layout.freeCount, hb]
          rw [hb] at hflag
          by_cases hroom : free.length < maxNodes
          · rw [collect_free (by omega) hblock hflag hroom, htag.tagSize_head, hnext]
            exact ih hcovers' htagged' htiles (by simp; omega) (by simp; omega) hfuel'
          · exact collect_no_room (by omega) hblock hflag hroom
      | true =>
          have hcount : Layout.freeCount (b :: rest) = Layout.freeCount rest := by
            simp [Layout.freeCount, hb]
          rw [hb] at hflag
          rw [collect_used (by omega) hblock hflag, htag.tagSize_head, hnext]
          exact ih hcovers' htagged' htiles hfull (by omega) hfuel'

end Collect

section Outcome

variable [DecidableEq ι] [Fintype ι] {binOf : Nat → ι} {s : Globals ι} {L : Layout ι}
  {bins : List ι} {ownBin : Reader → ι → Nat → Check Unit} {liveBytes : Nat → Check Unit}

omit [Fintype ι] in
/-- Nothing has been requested yet: there is nothing to walk over. -/
theorem checkWith_untouched (h : Represents binOf s L) (hempty : L.blocks = [])
    (hhi : s.heapHi = 0) (hlive : liveBytes 0 = .ok ()) :
    checkWith bins ownBin liveBytes (readWithin s.mem []) 1 s = .ok () := by
  have hcollect : collect (readWithin s.mem []) s.heapHi 1 s.heapLo [] 0 = .ok ([], 0) := by
    simp [collect, hhi, pure, Except.pure]
  have hnone : ∀ i, L.chains i = [] := by
    intro i
    have hlength := h.binned.length_le i
    rw [hempty, List.length_nil, Nat.le_zero] at hlength
    rw [Layout.chains, List.eq_nil_of_length_eq_zero hlength, List.map_nil]
  have hcross : bins.foldlM (fun count bin =>
      crossCheck (readWithin s.mem []) s [] (ownBin (readWithin s.mem []) bin) 1
        (s.freeHead bin) count) 0 = _ :=
    crossChecks_pass (fun _ hb => absurd hb List.not_mem_nil : Covers _ s.mem [])
      h.threaded.linked (by simp [hnone]) (by simp [hnone]) (by simp [hnone])
  have hcount : s.stat.freelistLen = 0 := by
    rw [h.length, hempty]
    rfl
  simp only [hnone, List.length_nil, List.map_const', List.sum_replicate_nat, Nat.mul_zero,
    Nat.add_zero] at hcross
  simp only [checkWith, hcollect, hlive, hcross, hcount, require, List.length_nil, bind,
    Except.bind, ↓reduceIte]

omit [DecidableEq ι] [Fintype ι] in
/-- A first request has failed: the walk reads at `NULL`. -/
theorem checkWith_null (hlo : s.heapLo = 0) (hhi : s.heapHi ≠ 0) :
    checkWith bins ownBin liveBytes (readWithin s.mem []) 1 s = .error (.badRead 0) := by
  have hblock : checkBlock (readWithin s.mem []) s.heapHi 0 = .error (.badRead 0) := by
    simp [checkBlock, readWithin, bind, Except.bind]
  have hpos : 0 < s.heapHi := by omega
  simp only [checkWith, collect, hlo, hpos, ↓reduceIte, hblock, bind, Except.bind]

omit [Fintype ι] in
/-- The check of a heap with more free blocks than the array holds. -/
theorem checkWith_outgrown (h : Represents binOf s L) (hne : L.blocks ≠ [])
    (hcount : maxNodes < Layout.freeCount L.blocks) :
    checkWith bins ownBin liveBytes (readWithin s.mem (L.blocks.map Block.addr))
      (L.blocks.length + 1) s = .error (.failed .room) := by
  obtain ⟨_, htiles⟩ := h.arena.tiles hne
  have hbase := h.room.base_ne_zero hne
  have hcur := h.room.cur_lt hbase
  rw [← (h.arena.top hbase).1] at htiles hcur
  have hcollect : collect (readWithin s.mem (L.blocks.map Block.addr)) s.heapHi
      (L.blocks.length + 1) s.heapLo [] 0 = .error (.failed .room) :=
    collect_outgrown (readWithin_covers h.threaded.tagged) h.threaded.tagged htiles hcur
      (Nat.zero_le _) (by simpa using hcount) (by omega)
  simp only [checkWith, hcollect, bind, Except.bind]

/-- The check of a heap that is represented. -/
theorem checkWith_outcome (h : Represents binOf s L) (hbins : bins.Nodup)
    (hall : ∀ i, i ∈ bins)
    (hown : ∀ i, ∀ b ∈ L.lists i,
      ownBin (readWithin s.mem (L.blocks.map Block.addr)) i b.addr = .ok ())
    (hlive : liveBytes (Layout.bytes (Layout.usedBlocks L.blocks)) = .ok ()) :
    ∃ fuel, checkWith bins ownBin liveBytes (readWithin s.mem (L.blocks.map Block.addr)) fuel s =
      outcome s := by
  unfold outcome
  by_cases hempty : L.blocks = []
  · have hlo := (h.arena.untouched hempty).1
    rw [hempty] at hlive ⊢
    by_cases hhi : s.heapHi = 0
    · rw [if_pos hhi]
      exact ⟨1, checkWith_untouched h hempty hhi hlive⟩
    · rw [if_neg hhi, if_pos hlo]
      exact ⟨1, checkWith_null hlo hhi⟩
  · obtain ⟨hpage, _⟩ := h.arena.region (h.room.base_ne_zero hempty)
    obtain ⟨hlo, htiles⟩ := h.arena.tiles hempty
    have htop := (h.arena.top (h.room.base_ne_zero hempty)).1
    have hle := htiles.le
    rw [if_neg (by omega), if_neg (by omega), h.length]
    refine ⟨L.blocks.length + 1, ?_⟩
    by_cases hcount : Layout.freeCount L.blocks ≤ maxNodes
    · rw [if_pos hcount]
      exact checkWith_passes h hempty hcount hbins hall hown hlive
    · rw [if_neg hcount]
      exact checkWith_outgrown h hempty (by omega)

end Outcome

/-- The checker of either file on every heap that admitted calls lead to: no assertion
fails, and nothing outside the blocks is read, except that the walk starts at `NULL` when
the first request has failed, and that the array must hold the free blocks. -/
theorem check_outcome {mmap : Mmap} (hsound : mmap.Sound) :
    (∀ (w : Client Unit) headers,
      Runs.Reach (Client.step (FirstFit.api mmap)) (FirstFit.Admits mmap)
        (Client.initial Unit) w →
      Headers w.heap headers →
      ∃ fuel, FirstFit.checkInvariant (readWithin w.heap.mem headers) fuel w.heap =
        outcome w.heap) ∧
    ∀ (w : Client Segregated.Bin) headers,
      Runs.Reach (Client.step (Segregated.api mmap)) (Segregated.Admits mmap)
        (Client.initial Segregated.Bin) w →
      Headers w.heap headers →
      ∃ fuel, Segregated.checkInvariant (readWithin w.heap.mem headers) fuel w.heap =
        outcome w.heap := by
  constructor
  · intro w headers hreach hheaders
    obtain ⟨L, h, _⟩ := (FirstFit.contract hsound).invariant
      (fun _ _ hadmits => hadmits.safe) hreach
    rw [hheaders.unique h.headers]
    exact checkWith_outcome h (by simp) (by simp) (fun _ _ _ => rfl) rfl
  · intro w headers hreach hheaders
    obtain ⟨L, h, _, hacc⟩ := Segregated.reach_accounts hsound hreach
    rw [hheaders.unique h.headers]
    refine checkWith_outcome h (List.nodup_finRange 11) List.mem_finRange ?_ ?_
    · intro i b hb
      obtain ⟨hrow, _, hbin⟩ := h.binned.mem_iff.mp hb
      have hge := b.size_ge
      have hread := readWithin_covers h.threaded.tagged b hrow b.addr 4 (Nat.le_refl _) (by omega)
      change (readWithin w.heap.mem (L.blocks.map Block.addr) b.addr 4 >>= _) = _
      rw [hread]
      change require _ _ = _
      rw [require_eq_ok, (h.threaded.tagged b hrow).tagSize_head]
      exact hbin
    · rw [require_eq_ok]
      exact hacc.live.symm

/-- A heap with a used and a free block. -/
theorem check_outcome_example :
    (∃ w, Runs.run (Client.step (FirstFit.api lowRegion)) (Client.initial Unit)
        [.malloc 16, .malloc 40, .free 4112] = some w ∧
      ∃ fuel, FirstFit.checkInvariant (readWithin w.heap.mem [4108, 4140]) fuel w.heap = .ok ()) ∧
    ∃ w, Runs.run (Client.step (Segregated.api lowRegion)) (Client.initial Segregated.Bin)
        [.malloc 16, .malloc 40, .free 4112] = some w ∧
      ∃ fuel, Segregated.checkInvariant (readWithin w.heap.mem [4108, 4140]) fuel w.heap =
        .ok () := by
  have hheaders : ∀ {ι : Type} {s : Globals ι}, s.heapLo = 4108 → s.heapHi = 4188 →
      blockSize s.mem 4108 = 32 → blockSize s.mem 4140 = 48 → Headers s [4108, 4140] := by
    intro ι s hlo hhi hfirst hsecond
    simp [Headers, hlo, hhi, hfirst, hsecond, Tiles]
  have houtcome : ∀ {ι : Type} {s : Globals ι}, s.heapLo = 4108 → s.heapHi = 4188 →
      s.stat.freelistLen = 1 → outcome s = .ok () := by
    intro ι s hlo hhi hlen
    simp [outcome, hlo, hhi, hlen, maxNodes]
  constructor
  · have hfacts : (Runs.run (Client.step (FirstFit.api lowRegion)) (Client.initial Unit)
        [.malloc 16, .malloc 40, .free 4112]).map (fun w => (w.heap.heapLo, w.heap.heapHi,
          blockSize w.heap.mem 4108, blockSize w.heap.mem 4140, w.heap.stat.freelistLen)) =
        some (4108, 4188, 32, 48, 1) := by decide +kernel
    obtain ⟨w, hrun, hw⟩ := Option.map_eq_some_iff.mp hfacts
    simp only [Prod.mk.injEq] at hw
    obtain ⟨hlo, hhi, hfirst, hsecond, hlen⟩ := hw
    refine ⟨w, hrun, ?_⟩
    rw [← houtcome hlo hhi hlen]
    exact (check_outcome lowRegion_sound).1 w _ (.of_run .start (by decide +kernel) hrun)
      (hheaders hlo hhi hfirst hsecond)
  · have hfacts : (Runs.run (Client.step (Segregated.api lowRegion))
        (Client.initial Segregated.Bin)
        [.malloc 16, .malloc 40, .free 4112]).map (fun w => (w.heap.heapLo, w.heap.heapHi,
          blockSize w.heap.mem 4108, blockSize w.heap.mem 4140, w.heap.stat.freelistLen)) =
        some (4108, 4188, 32, 48, 1) := by decide +kernel
    obtain ⟨w, hrun, hw⟩ := Option.map_eq_some_iff.mp hfacts
    simp only [Prod.mk.injEq] at hw
    obtain ⟨hlo, hhi, hfirst, hsecond, hlen⟩ := hw
    refine ⟨w, hrun, ?_⟩
    rw [← houtcome hlo hhi hlen]
    exact (check_outcome lowRegion_sound).2 w _ (.of_run .start (by decide +kernel) hrun)
      (hheaders hlo hhi hfirst hsecond)

end AllocSitter
