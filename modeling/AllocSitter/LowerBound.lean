/-
What `bench/analyze_trace.py` calls a theoretical lower bound: no allocator can place the
blocks of a run in less memory than the peak of the requested bytes.  `allocator.c` has no
account of live bytes to compare with, but its arena is never smaller than either peak.
-/
import AllocSitter.ArenaBreak
import AllocSitter.Intervals
import AllocSitter.RequestStatistics

namespace AllocSitter

open Intervals

section AnyAllocator

variable {ι : Type} {api : Api ι} {b b' : Bench ι} {w w' : Client ι} {call : Call} {q : Nat}
  {known : List (Nat × Nat)} {trace : List Record}

/-- The blocks at these pointers, with these sizes, lie apart from each other between `lo`
and `hi`, and none is at `NULL`. -/
structure Placed (lo hi : Nat) (live : List (Nat × Nat)) : Prop where
  keys : (live.map Prod.fst).Nodup
  nonnull : ∀ entry ∈ live, entry.1 ≠ 0
  inside : ∀ entry ∈ live, lo ≤ entry.1 ∧ entry.1 + entry.2 ≤ hi
  apart : Apart Prod.fst Prod.snd live

instance (lo hi : Nat) (live : List (Nat × Nat)) : Decidable (Placed lo hi live) :=
  decidable_of_iff ((live.map Prod.fst).Nodup ∧ (∀ entry ∈ live, entry.1 ≠ 0) ∧
      (∀ entry ∈ live, lo ≤ entry.1 ∧ entry.1 + entry.2 ≤ hi) ∧
      live.Pairwise fun (x y : Nat × Nat) => x.1 + x.2 ≤ y.1 ∨ y.1 + y.2 ≤ x.1)
    ⟨fun ⟨hkeys, hnonnull, hinside, hapart⟩ => ⟨hkeys, hnonnull, hinside, hapart⟩,
      fun ⟨hkeys, hnonnull, hinside, hapart⟩ => ⟨hkeys, hnonnull, hinside, hapart⟩⟩

/-- The blocks are placed in `size` bytes of memory. -/
def FitsIn (size : Nat) (live : List (Nat × Nat)) : Prop := ∃ lo, Placed lo (lo + size) live

theorem drop_null_of_nonnull {live : List (Nat × Nat)} (h : ∀ entry ∈ live, entry.1 ≠ 0) :
    Client.drop live 0 = live := by
  apply List.filter_eq_self.mpr
  intro entry hentry
  simpa using h entry hentry

/-- Blocks of the second list, in their order, each told of with at most its size.  The line
of a `w_calloc` tells the product of its arguments modulo `2 ^ 64`. -/
def Told (known live : List (Nat × Nat)) : Prop :=
  List.SublistForall₂ (fun told held => told.1 = held.1 ∧ told.2 ≤ held.2) known live

theorem Told.mem {entry : Nat × Nat} {live : List (Nat × Nat)} (h : Told known live)
    (hentry : entry ∈ known) : ∃ held ∈ live, entry.1 = held.1 ∧ entry.2 ≤ held.2 := by
  induction h with
  | nil => simp at hentry
  | cons hhead _ ih =>
      rcases List.mem_cons.mp hentry with rfl | hentry
      · exact ⟨_, List.mem_cons_self, hhead⟩
      · obtain ⟨held, hmem, hheld⟩ := ih hentry
        exact ⟨held, List.mem_cons_of_mem _ hmem, hheld⟩
  | cons_right _ ih =>
      obtain ⟨held, hmem, hheld⟩ := ih hentry
      exact ⟨held, List.mem_cons_of_mem _ hmem, hheld⟩

theorem Told.keys {live : List (Nat × Nat)} (h : Told known live) :
    (known.map Prod.fst).Sublist (live.map Prod.fst) := by
  induction h with
  | nil => exact List.nil_sublist _
  | cons hhead _ ih =>
      rw [List.map_cons, List.map_cons, hhead.1]
      exact ih.cons_cons _
  | cons_right _ ih => exact ih.cons _

/-- A sum over what is told of is at most the sum over what is held. -/
theorem Told.sum_le {live : List (Nat × Nat)} {f : Nat → Nat} (hf : Monotone f)
    (h : Told known live) :
    (known.map fun entry => f entry.2).sum ≤ (live.map fun entry => f entry.2).sum := by
  induction h with
  | nil => exact Nat.zero_le _
  | cons hhead _ ih => exact Nat.add_le_add (hf hhead.2) ih
  | cons_right _ ih => exact Nat.le_add_left_of_le ih

/-- A block that is dropped from both. -/
theorem Told.drop {live : List (Nat × Nat)} (ptr : Nat) (h : Told known live) :
    Told (Client.drop known ptr) (Client.drop live ptr) := by
  induction h with
  | nil => exact .nil
  | @cons told held known live hhead _ ih =>
      by_cases hptr : held.1 = ptr
      · simpa [Client.drop, hhead.1, hptr] using ih
      · have hkept : Told (told :: Client.drop known ptr) (held :: Client.drop live ptr) :=
          .cons hhead ih
        simpa [Client.drop, hhead.1, hptr] using hkept
  | @cons_right held known live _ ih =>
      by_cases hptr : held.1 = ptr
      · simpa [Client.drop, hptr] using ih
      · have hkept : Told (Client.drop known ptr) (held :: Client.drop live ptr) :=
          .cons_right ih
        simpa [Client.drop, hptr] using hkept

/-- A block that the script forgets and the client still holds. -/
theorem Told.forget {live : List (Nat × Nat)} (ptr : Nat) (h : Told known live) :
    Told (Client.drop known ptr) live := by
  induction h with
  | nil => exact .nil
  | @cons told held known live hhead _ ih =>
      by_cases hptr : told.1 = ptr
      · have hforgotten : Told (Client.drop known ptr) (held :: live) := .cons_right ih
        simpa [Client.drop, hptr] using hforgotten
      · have hkept : Told (told :: Client.drop known ptr) (held :: live) := .cons hhead ih
        simpa [Client.drop, hptr] using hkept
  | cons_right _ ih => exact .cons_right ih

/-- A new block, told of with at most its size. -/
theorem Told.hold {live : List (Nat × Nat)} {size size' : Nat} (ptr : Nat) (hle : size' ≤ size)
    (h : Told known live) : Told (Client.hold known ptr size') (Client.hold live ptr size) := by
  unfold Client.hold
  split
  · exact h
  · exact .cons ⟨rfl, hle⟩ h

/-- What the line of a call tells of is what the client then holds, as far as it was told of
before. -/
theorem Told.after (hnull : Client.drop w.live 0 = w.live) (h : Told known w.live)
    (hexec : w.exec api call = some (w', q)) :
    Told ((record q call).elim known (Record.track known)) w'.live := by
  cases call with
  | malloc size =>
      rw [(Client.exec_malloc hexec).2]
      exact h.hold q (Nat.le_refl size)
  | calloc nmemb size =>
      rw [(Client.exec_calloc hexec).2]
      exact h.hold q (Nat.mod_le _ _)
  | free ptr =>
      rw [(Client.exec_free hexec).2.1]
      by_cases hptr : ptr = 0
      · simpa [record, hptr, hnull] using h
      · have hrecord : record q (.free ptr) = some (.f ptr) := by simp [record, hptr]
        rw [hrecord]
        exact h.drop ptr
  | realloc ptr size =>
      rw [(Client.exec_realloc hexec).2]
      split
      · -- The script forgets a block whose resize was refused.
        next hfail =>
          have hline : (Record.r ptr size q).track known = Client.drop known ptr := by
            rw [Record.track, Client.hold, if_pos hfail.1]
          rw [record, Option.elim_some, hline]
          exact h.forget ptr
      · exact (h.drop ptr).hold q (Nat.le_refl size)
  | write addr byte =>
      rw [← (Prod.mk.inj (Option.some.inj hexec)).1]
      exact h
  | statReset =>
      rw [← (Prod.mk.inj (Option.some.inj hexec)).1]
      exact h

/-- The trace of a bench, and the blocks that the script knows of, which are live. -/
structure Watches (b : Bench ι) (trace : List Record) (known : List (Nat × Nat)) : Prop where
  written : b.trace = some trace
  knows : Knows (Replay.replay trace) known
  seen : Told known b.client.live

/-- One call through its wrapper, as the script sees it. -/
theorem Watches.step (h : Watches b trace known)
    (hnonnull : ∀ entry ∈ b.client.live, entry.1 ≠ 0)
    (hkeys : (b'.client.live.map Prod.fst).Nodup) (hstep : b.step api call = some b') :
    ∃ trace' known', Watches b' trace' known' ∧
      (Replay.replay trace).PeaksFrom (Replay.replay trace') := by
  obtain ⟨⟨w', q⟩, hexec, rfl⟩ := Option.map_eq_some_iff.mp hstep
  have hseen := h.seen.after (drop_null_of_nonnull hnonnull) hexec
  have hnull : Client.drop known 0 = known := by
    apply drop_null_of_nonnull
    intro entry hentry
    obtain ⟨held, hmem, hptr, _⟩ := h.seen.mem hentry
    exact hptr ▸ hnonnull held hmem
  have hknows := h.knows.after hnull (hkeys.sublist hseen.keys)
  have hpeaks := peaks_after (Replay.replay trace) (record q call)
  rw [← Replay.replay_append] at hknows hpeaks
  exact ⟨_, _, ⟨by rw [h.written]; rfl, hknows, hseen⟩, hpeaks⟩

/-- What the script counts as live is placed where the live blocks are. -/
theorem Watches.liveReq_le {size : Nat} (h : Watches b trace known)
    (hfits : FitsIn size b.client.live) : (Replay.replay trace).liveReq ≤ size := by
  obtain ⟨lo, hplaced⟩ := hfits
  have hroom := hplaced.apart.sum_le hplaced.inside
  have hsum : (known.map Prod.snd).sum ≤ (b.client.live.map Prod.snd).sum :=
    h.seen.sum_le monotone_id
  rw [h.knows.req]
  omega

/-- The lower bound for any allocator and any calls: if after every call the live blocks lie
apart from each other in `size` bytes of memory, wherever, then the peak of the requested
bytes is at most `size`. -/
theorem peak_requested_le {size : Nat} (start : Bench ι)
    (hrun : Runs.Reach (Bench.step api) (fun b _ => FitsIn size b.client.live)
      (start.measure api true) b)
    (hfits : FitsIn size b.client.live) :
    ∃ trace, b.trace = some trace ∧ (Replay.replay trace).peakReq ≤ size := by
  have hwatches : ∃ trace known, Watches b trace known ∧ (Replay.replay trace).peakReq ≤ size := by
    induction hrun with
    | start =>
        exact ⟨[], [], ⟨rfl, knows_initial, .nil⟩, Int.natCast_nonneg size⟩
    | next _ hearlier hstep ih =>
        obtain ⟨trace, known, hwatches, hpeak⟩ := ih hearlier
        obtain ⟨_, hbefore⟩ := hearlier
        obtain ⟨_, hafter⟩ := id hfits
        obtain ⟨trace', known', hwatches', hpeaks⟩ :=
          hwatches.step hbefore.nonnull hafter.keys hstep
        have hlive := hwatches'.liveReq_le hfits
        refine ⟨trace', known', hwatches', ?_⟩
        rcases hpeaks with ⟨hsame, _⟩ | ⟨hmax, _⟩
        · omega
        · omega
  obtain ⟨trace, known, hwatches, hpeak⟩ := hwatches
  exact ⟨trace, hwatches.written, hpeak⟩

/-- Blocks that take turns in 64 bytes. -/
theorem peak_requested_le_example :
    ∃ b, Runs.run (Bench.step (Segregated.api lowRegion))
        (Bench.measure (Segregated.api lowRegion) true ⟨Client.initial Segregated.Bin, {}, none⟩)
        [.malloc 24, .malloc 20, .free 4112, .malloc 21, .free 4144] = some b ∧
      ∃ trace, b.trace = some trace ∧ (Replay.replay trace).peakReq ≤ 64 := by
  have hfacts : (Runs.run (Bench.step (Segregated.api lowRegion))
      (Bench.measure (Segregated.api lowRegion) true ⟨Client.initial Segregated.Bin, {}, none⟩)
      [.malloc 24, .malloc 20, .free 4112, .malloc 21, .free 4144]).map
        (fun b => decide (Placed 4108 (4108 + 64) b.client.live)) = some true := by decide +kernel
  obtain ⟨b, hrun, hplaced⟩ := Option.map_eq_some_iff.mp hfacts
  have hreach : Runs.Reach (Bench.step (Segregated.api lowRegion))
      (fun b _ => Placed 4108 (4108 + 64) b.client.live)
      (Bench.measure (Segregated.api lowRegion) true ⟨Client.initial Segregated.Bin, {}, none⟩) b :=
    .of_run .start (by decide +kernel) hrun
  exact ⟨b, hrun, peak_requested_le _
    (hreach.mono fun _ _ hplaced => ⟨4108, hplaced⟩) ⟨4108, of_decide_eq_true hplaced⟩⟩

end AnyAllocator

namespace FirstFit

open ByteMemory LinkedChain Tiling

variable {mmap : Mmap} {w w' : Client Unit} {s s' : State} {L L' : Layout Unit} {call : Call}
  {b b' : Bench Unit}

/-- What the arena has given out. -/
def arenaUsed (s : State) : Nat := s.arenaCur - s.arenaBase

theorem mallocCase_arenaUsed {need p : Nat} (h : Represents theList s L)
    (hcase : MallocCase theList (fun _ stat => stat) mmap s L need s' p L') :
    arenaUsed s ≤ arenaUsed s' := by
  unfold arenaUsed
  cases hcase with
  | split _ _ _ _ _ _ _ hsame => rw [hsame.arenaCur, hsame.arenaBase]
  | whole _ _ _ _ _ hsame => rw [hsame.arenaCur, hsame.arenaBase]
  | extend _ _ _ htop _ hcur _ =>
      rcases htop with ⟨_, htop, hbase⟩ | ⟨hbase, _, htop⟩
      · omega
      · have hcur₀ := (h.arena.untouched (h.arena.unmapped hbase)).2
        omega
  | fail _ hwhy _ =>
      rcases hwhy with ⟨_, _, rfl⟩ | ⟨hbase, _, _⟩
      · exact Nat.le_refl _
      · have hcur₀ := (h.arena.untouched (h.arena.unmapped hbase)).2
        omega

/-- The arena never takes back. -/
theorem arenaUsed_step (hsound : mmap.Sound) (hinv : Inv theList w) (hadmits : Admits mmap w call)
    (hstep : w.step (api mmap) call = some w') : arenaUsed w.heap ≤ arenaUsed w'.heap := by
  obtain ⟨L, h, _⟩ := hinv
  rcases passesOn (Client.step_heap hstep) with ⟨_, hsame⟩ | ⟨n, s₁, p, hrequest, heq, hsame⟩
  · unfold arenaUsed
    rw [hsame.arenaCur, hsame.arenaBase]
  · obtain ⟨hn, hsafe⟩ := hadmits.safe.2.1 n hrequest
    obtain ⟨s₂, p₂, L', hmalloc, hcase, _, _⟩ := myMalloc_spec hsound h hn hsafe
    obtain ⟨rfl, rfl⟩ := Prod.mk.inj (Option.some.inj (hmalloc.symm.trans heq))
    have hle := mallocCase_arenaUsed h hcase
    unfold arenaUsed at hle ⊢
    rw [hsame.arenaCur, hsame.arenaBase]
    exact hle

/-- The blocks of the script's model would fit where the live blocks are. -/
theorem chunks_le_arenaUsed (hinv : Inv theList w) :
    (w.live.map fun entry => chunkOf entry.2).sum ≤ arenaUsed w.heap := by
  have hkeys : w.live.Pairwise fun x y => x.1 ≠ y.1 := List.pairwise_map.mp hinv.keys_nodup
  have hheld : ∀ entry ∈ w.live, w.Holds entry.1 := fun entry hentry => ⟨entry.2, hentry⟩
  have hapart : Apart (fun entry => entry.1 - 4) (fun entry => w.chunk entry.1) w.live := by
    refine hkeys.imp_of_mem fun hx hy hne => ?_
    have hlow := (hinv.held_facts (hheld _ hx)).2.1
    have hlow' := (hinv.held_facts (hheld _ hy)).2.1
    have hapart := hinv.held_apart (hheld _ hx) (hheld _ hy) hne
    dsimp only
    omega
  have hinside : ∀ entry ∈ w.live, w.heap.arenaBase ≤ entry.1 - 4 ∧
      entry.1 - 4 + w.chunk entry.1 ≤ w.heap.arenaCur := by
    intro entry hentry
    obtain ⟨L, h, howns⟩ := hinv
    obtain ⟨c, _, hptr, hrow, hchunk⟩ := howns.held h (hheld entry hentry)
    obtain ⟨hlow, hhigh, _⟩ := h.room.bounds hrow
    rw [hchunk, hptr, Block.payload]
    omega
  have hchunks : ∀ entry ∈ w.live, chunkOf entry.2 ≤ w.chunk entry.1 := by
    intro entry hentry
    have hroom := hinv.held_room (show (entry.1, entry.2) ∈ w.live from hentry)
    obtain ⟨L, h, howns⟩ := hinv
    obtain ⟨c, _, _, _, hchunk⟩ := howns.held h (hheld entry hentry)
    have hmod := c.size_mod
    rw [hchunk] at hroom ⊢
    unfold chunkOf tagSize
    omega
  calc (w.live.map fun entry => chunkOf entry.2).sum
      ≤ (w.live.map fun entry => w.chunk entry.1).sum := List.sum_le_sum hchunks
    _ ≤ arenaUsed w.heap := hapart.sum_le hinside

/-- The layers over `allocator.c`: what was asked for, what the script's blocks would take,
and what the arena has given out. -/
structure Layered (r : Replay) (s : State) : Prop where
  requested : r.peakReq ≤ r.peakReal
  given : r.peakReal ≤ arenaUsed s

/-- One call of the measured part. -/
theorem Layered.step (hsound : mmap.Sound) {trace : List Record} {known : List (Nat × Nat)}
    (hinv : Inv theList b.client) (hwatches : Watches b trace known)
    (h : Layered (Replay.replay trace) b.client.heap) (hadmits : Admits mmap b.client call)
    (hstep : b.step (api mmap) call = some b') :
    ∃ trace' known', Watches b' trace' known' ∧
      Layered (Replay.replay trace') b'.client.heap := by
  obtain ⟨⟨w', q⟩, hexec, heq⟩ := Option.map_eq_some_iff.mp hstep
  have hclient : b.client.step (api mmap) call = some b'.client := by
    rw [← heq]
    exact Client.step_of_exec hexec
  obtain ⟨hallows, hsafe⟩ := hadmits.safe
  have hinv' := (contract hsound).keeps hinv hallows hsafe hclient
  have hnonnull : ∀ entry ∈ b.client.live, entry.1 ≠ 0 := fun entry hentry hzero =>
    hinv.null_not_held ⟨entry.2, hzero ▸ hentry⟩
  obtain ⟨trace', known', hwatches', hpeaks⟩ :=
    hwatches.step hnonnull hinv'.keys_nodup hstep
  have hgrows := arenaUsed_step hsound hinv hadmits hclient
  have hreq := hwatches'.knows.req_le_real
  have hreal : (Replay.replay trace').liveReal ≤ arenaUsed b'.client.heap := by
    have hle := (hwatches'.seen.sum_le chunkOf_mono).trans (chunks_le_arenaUsed hinv')
    rw [hwatches'.knows.real]
    exact_mod_cast hle
  obtain ⟨hrequested, hgiven⟩ := h
  refine ⟨trace', known', hwatches', ?_⟩
  rcases hpeaks with ⟨hsameReq, hsameReal⟩ | ⟨hmaxReq, hmaxReal⟩
  · exact ⟨by omega, by omega⟩
  · exact ⟨by omega, by omega⟩

/-- In any state that admitted calls lead to, with blocks that may be live already, the trace
is opened: after any admitted calls through the wrappers the peaks of the script lie below
what the arena has given out, although `my_realloc` resizes in place and may leave a block
larger than the script thinks. -/
theorem memory_layers_in_place (hsound : mmap.Sound) {start : Bench Unit}
    (hreach : Runs.Reach (Client.step (api mmap)) (Admits mmap) (Client.initial Unit)
      start.client)
    (hrun : Runs.Reach (Bench.step (api mmap)) (fun b call => Admits mmap b.client call)
      (start.measure (api mmap) true) b) :
    ∃ trace, b.trace = some trace ∧ Layered (Replay.replay trace) b.client.heap := by
  have hlayered : Runs.Reach (Client.step (api mmap)) (Admits mmap) (Client.initial Unit)
      b.client ∧ ∃ trace known, Watches b trace known ∧
        Layered (Replay.replay trace) b.client.heap := by
    induction hrun with
    | start =>
        refine ⟨hreach.next (show Admits mmap start.client .statReset from
          ⟨⟨trivial, trivial⟩, fun n hn => by simp [request] at hn⟩) rfl, [], [], ?_, ?_⟩
        · exact ⟨rfl, knows_initial, .nil⟩
        · exact ⟨Int.le_refl 0, Int.natCast_nonneg _⟩
    | next _ hadmits hstep ih =>
        obtain ⟨hbefore, trace, known, hwatches, hlayered⟩ := ih
        have hafter := hlayered.step hsound (reach_inv hsound hbefore) hwatches hadmits hstep
        obtain ⟨⟨w', q⟩, hexec, rfl⟩ := Option.map_eq_some_iff.mp hstep
        exact ⟨hbefore.next hadmits (Client.step_of_exec hexec), hafter⟩
  obtain ⟨_, trace, known, hwatches, hlayered⟩ := hlayered
  exact ⟨trace, hwatches.written, hlayered⟩

/-- A block of 112 bytes is live when the trace is opened; it is cut in place, and grows into
what was cut off. -/
theorem memory_layers_in_place_example :
    ∃ w, Runs.run (Client.step (api lowRegion)) (Client.initial Unit) [.malloc 100] = some w ∧
      ∃ b, Runs.run (Bench.step (api lowRegion)) (Bench.measure (api lowRegion) true ⟨w, {}, none⟩)
          [.realloc 4112 20, .malloc 30, .free 4144, .realloc 4112 90] = some b ∧
        ∃ trace, b.trace = some trace ∧ Layered (Replay.replay trace) b.client.heap := by
  have hfacts : (Runs.run (Client.step (api lowRegion)) (Client.initial Unit)
      [.malloc 100]).map (fun w => (decide (Runs.RunOk (Bench.step (api lowRegion))
          (fun b call => Admits lowRegion b.client call)
          (Bench.measure (api lowRegion) true ⟨w, {}, none⟩)
          [.realloc 4112 20, .malloc 30, .free 4144, .realloc 4112 90]),
        (Runs.run (Bench.step (api lowRegion)) (Bench.measure (api lowRegion) true ⟨w, {}, none⟩)
          [.realloc 4112 20, .malloc 30, .free 4144, .realloc 4112 90]).isSome)) =
      some (true, true) := by decide +kernel
  obtain ⟨w, hstart, hw⟩ := Option.map_eq_some_iff.mp hfacts
  obtain ⟨hok, hsome⟩ := Prod.mk.inj hw
  obtain ⟨b, hrun⟩ := Option.isSome_iff_exists.mp hsome
  have hreach : Runs.Reach (Client.step (api lowRegion)) (Admits lowRegion)
      (Client.initial Unit) w := .of_run .start (by decide +kernel) hstart
  exact ⟨w, hstart, b, hrun, memory_layers_in_place lowRegion_sound hreach
    (.of_run .start (of_decide_eq_true hok) hrun)⟩

end FirstFit

end AllocSitter
