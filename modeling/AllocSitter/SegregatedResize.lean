/-
`my_realloc` of `segregated_allocator.c`: always a new block, a copy and a free.  It
either changes nothing, or hands out the new block with the data and puts the old one
in front of its bin.
-/
import AllocSitter.Accounting
import AllocSitter.Isolation
import AllocSitter.RequestArithmetic

namespace AllocSitter

namespace Segregated

open ByteMemory LinkedChain Tiling

/-- `my_realloc(ptr, size)` with the result `q` has kept the data, is without effect
if it has failed, and has given the old block back otherwise. -/
structure Reallocated (w : Client Bin) (ptr size : Nat) (w' : Client Bin) (q : Nat) : Prop where
  keeps : KeepsData w ptr size w' q
  memory : q = 0 → w'.heap.mem = w.heap.mem ∧ w'.heap.freeHead = w.heap.freeHead ∧
    w'.heap.arenaCur = w.heap.arenaCur
  account : q = 0 → w'.heap.stat.freelistLen = w.heap.stat.freelistLen ∧
    w'.heap.stat.liveRealBytes = w.heap.stat.liveRealBytes ∧
    w'.heap.stat.peakLiveRealBytes = w.heap.stat.peakLiveRealBytes
  moved : q ≠ 0 → q ≠ ptr
  freed : q ≠ 0 → w'.heap.freeHead (sizeToBin (w.chunk ptr)) = ptr - 4 ∧
    load w'.heap.mem (ptr - 4) 4 = w.chunk ptr
  live : q ≠ 0 → w'.heap.stat.liveRealBytes + w.chunk ptr =
    w.heap.stat.liveRealBytes + w'.chunk q

variable {mmap : Mmap} {w : Client Bin} {ptr size : Nat}

/-- A freed block is the first of its bin, and its header says free. -/
theorem myFree_head {s : State} {L : Layout Bin} {c : Block} {pre post : List Block}
    (h : Represents sizeToBin s L) (hblocks : L.blocks = pre ++ c :: post)
    (hused : c.used = true) :
    (myFree s c.payload).freeHead (sizeToBin c.size) = c.addr ∧
      load (myFree s c.payload).mem c.addr 4 = c.size := by
  obtain ⟨hrep, _⟩ := myFree_spec h hblocks hused
  constructor
  · have hlinked := hrep.threaded.linked (sizeToBin c.size)
    rw [chains_push] at hlinked
    have hself : c.release.size = c.size := rfl
    rw [hself, Function.update_self] at hlinked
    exact (linked_cons.mp hlinked).1
  · exact (hrep.threaded.tagged c.release (by simp)).1

/-- The live bytes of a block that replaces another. -/
theorem live_of_replaced {s s₁ s₂ : State} {L L₁ : Layout Bin} {c u : Block} {need : Nat}
    (h : Represents sizeToBin s L) (hacc : Accounts s L)
    (hcase : MallocCase sizeToBin liveAdd mmap s L need s₁ u.payload L₁)
    (hrep : Represents sizeToBin s₁ L₁) (hrep₂ : Represents sizeToBin s₂ L₁)
    (hstat : s₂.stat = s₁.stat)
    (hperm : (Layout.usedBlocks L₁.blocks).Perm (u :: Layout.usedBlocks L.blocks))
    (hc : c ∈ Layout.usedBlocks L₁.blocks) :
    (myFree s₂ c.payload).stat.liveRealBytes + c.size = s.stat.liveRealBytes + u.size := by
  obtain ⟨hacc₁, _⟩ := gains_accounts hacc (hcase.gains h.lists_free) hrep
  have hbytes := (Layout.bytes_perm hperm).trans (Layout.bytes_cons u _)
  have hlive := hacc.live
  have hlive₁ := hacc₁.live
  have hlt := hrep.used_bytes_lt
  have hacc₂ : Accounts s₂ L₁ := ⟨by rw [hstat]; exact hlive₁, by rw [hstat]; exact hacc₁.peak⟩
  obtain ⟨hle, _⟩ := myFree_accounts hrep₂ hacc₂ hc
  obtain ⟨hrow, hused⟩ := Layout.mem_usedBlocks.mp hc
  obtain ⟨pre, post, hblocks⟩ := List.append_of_mem hrow
  obtain ⟨_, _, hstat', _⟩ := myFree_spec hrep₂ hblocks hused
  rw [hstat] at hle
  have hafter : (myFree s₂ c.payload).stat.liveRealBytes =
      s₁.stat.liveRealBytes - c.size := by
    rw [hstat', hstat]
    exact ptrSub_of_le hle (by omega)
  omega

/-- A resize that reaches the arena safely, if it reaches it. -/
theorem reallocated_of_safe (hsound : mmap.Sound) (hinv : Inv sizeToBin w) {L : Layout Bin}
    (h : Represents sizeToBin w.heap L) (howns : Owns w.live (Layout.usedBlocks L.blocks))
    (hacc : Accounts w.heap L) (hptr : w.Holds ptr) (hpos : size ≠ 0) (hsize : size ≤ 2 ^ 63)
    (hsafe : PassesSafely sizeToBin mmap w.heap (request (.realloc ptr size))) :
    ∃ w' q, w.exec (api mmap) (.realloc ptr size) = some (w', q) ∧
      Reallocated w ptr size w' q := by
  have hadmits : Admits mmap w (.realloc ptr size) :=
    ⟨⟨⟨Or.inr hptr, show size < 2 ^ 64 by omega⟩, hsize⟩, hsafe⟩
  obtain ⟨hallows, hok⟩ := hadmits.safe
  obtain ⟨w', q, hexec, hcall, _, _, hkeeps⟩ :=
    (contract hsound).keepsData hinv hptr hpos hallows hok
  refine ⟨w', q, hexec, ?_⟩
  obtain ⟨n, hmem⟩ := hptr
  obtain ⟨c, hc, rfl, _⟩ := howns.block_of_mem hmem
  obtain ⟨hrow, hused⟩ := Layout.mem_usedBlocks.mp hc
  have hchunk := h.chunk_eq hrow
  have hpayload : c.payload - 4 = c.addr := Nat.add_sub_cancel c.addr 4
  have hbound : size + 40 ≤ 2 ^ 64 := by omega
  obtain ⟨s₁, p, L₁, _, hcase, hrep, _, hresult⟩ := myRealloc_spec hsound h hc hpos hbound
    (hsafe size (by simp [request, hpos]))
  have hreturns : myRealloc mmap w.heap c.payload size = some (w'.heap, q) := hcall
  rcases hresult with ⟨hp, hnull⟩ | ⟨s₂, hcopy, hp, hrep₂, hc₁, _, hdata, hmoved⟩
  · obtain ⟨hheap, rfl⟩ := Prod.mk.inj (Option.some.inj (hreturns.symm.trans hnull))
    obtain ⟨steps, hsame⟩ := hcase.eq_of_refused hp
      (h.room.base_ne_zero (List.ne_nil_of_mem hrow))
    have hstate : w'.heap = addScanSteps w.heap steps := hheap.trans hsame
    refine ⟨hkeeps fun hq => absurd rfl hq, fun _ => ?_, fun _ => ?_, fun hq => absurd rfl hq,
      fun hq => absurd rfl hq, fun hq => absurd rfl hq⟩
    · rw [hstate]
      exact ⟨rfl, rfl, rfl⟩
    · rw [hstate]
      exact ⟨rfl, rfl, rfl⟩
  · obtain ⟨hheap, rfl⟩ := Prod.mk.inj (Option.some.inj (hreturns.symm.trans hmoved))
    rcases hcase.gains h.lists_free with ⟨hzero, _⟩ | ⟨u, _, _, _, rfl, hneed, hperm, _⟩
    · exact absurd hzero hp
    · obtain ⟨pre, post, hblocks⟩ := List.append_of_mem (Layout.mem_usedBlocks.mp hc₁).1
      have hne := (hrep.gained hperm hc).2
      have hu : u ∈ Layout.usedBlocks L₁.blocks := hperm.mem_iff.mpr List.mem_cons_self
      have hurow := (Layout.mem_usedBlocks.mp hu).1
      obtain ⟨hrep₃, hframe, _⟩ := myFree_spec hrep₂ hblocks hused
      have hout : u ∈ pre ++ post := by
        rw [hblocks] at hurow
        exact mem_row_of_ne hurow hne.symm
      have huchunk : w'.chunk u.payload = u.size := by
        rw [← hheap] at hrep₃
        exact hrep₃.chunk_eq (mem_row_of_mem hout)
      refine ⟨hkeeps fun _ i hi => ?_, fun hq => absurd hq hp, fun hq => absurd hq hp,
        fun _ heq => ?_, fun _ => ?_, fun _ => ?_⟩
      · rw [hchunk] at hi
        have hfit := (chunkNeed_bounds hbound).2.2.1
        rw [hheap, ← hdata i hi]
        apply hframe u hout
        · unfold Block.payload
          omega
        · unfold Block.payload
          omega
      · have hapart := hrep.apart_of_ne (Layout.mem_usedBlocks.mp hc₁).1 hurow hne
        have hge := u.size_ge
        have hge' := c.size_ge
        unfold Block.payload at heq
        omega
      · rw [hchunk, hpayload, hheap]
        exact myFree_head hrep₂ hblocks hused
      · rw [hchunk, huchunk, hheap]
        exact live_of_replaced h hacc hcase hrep hrep₂ (by rw [hcopy]; rfl) hperm hc₁

/-- No tag tells of a block for a size beyond 32 bits, so that such a resize has to be
refused. -/
theorem safe_of_reallocated (hsound : mmap.Sound) (hinv : Inv sizeToBin w) {w' : Client Bin}
    {q : Nat} (hptr : w.Holds ptr) (hpos : size ≠ 0) (hsize : size ≤ 2 ^ 63)
    (hbig : 2 ^ 32 < size + 24) (hexec : w.exec (api mmap) (.realloc ptr size) = some (w', q))
    (hreallocated : Reallocated w ptr size w' q) :
    PassesSafely sizeToBin mmap w.heap (request (.realloc ptr size)) := by
  have hq : q = 0 := by
    by_contra hq
    have hroom := (hreallocated.keeps.returned hq).2.2
    have htag : w'.chunk q + 16 ≤ 2 ^ 32 := tagSize_load_lt w'.heap.mem (ptrSub q 4)
    omega
  obtain ⟨L, h, howns⟩ := hinv
  obtain ⟨n, hmem⟩ := hptr
  obtain ⟨c, hc, rfl, _⟩ := howns.block_of_mem hmem
  have hnull := h.payload_ne_zero hc
  have hbase := h.room.base_ne_zero (List.ne_nil_of_mem (Layout.mem_usedBlocks.mp hc).1)
  obtain ⟨s₁, p, hmalloc, hiff⟩ :=
    mallocWith_null_iff liveAdd hsound h (show size < 2 ^ 64 by omega) hbig
  have hmalloc' : myMalloc mmap w.heap size = some (s₁, p) := hmalloc
  have hcall : myRealloc mmap w.heap c.payload size = some (w'.heap, q) :=
    (Client.exec_realloc hexec).1
  have hp : p = 0 := by
    by_contra hp
    simp only [myRealloc, hnull, hpos, ↓reduceIte, hmalloc', Option.bind_eq_bind,
      Option.bind_some, hp] at hcall
    exact hp ((Prod.mk.inj (Option.some.inj hcall)).2.trans hq)
  have hsum : w.heap.arenaCur + chunkNeed size + ptrSub 12 w.heap.arenaCur % 16 < 2 ^ 64 := by
    rcases hiff.mp hp with hsmall | ⟨_, hsafe⟩ | ⟨hlarge, _⟩ | ⟨hlarge, _⟩
    · omega
    · unfold SumSafe at hsafe
      rwa [if_neg hbase] at hsafe
    · omega
    · omega
  intro m hm _
  rw [request, if_neg fun hzero => hpos hzero.2] at hm
  rw [← Option.some.inj hm, ArenaSafe, if_neg hbase]
  exact hsum

/-- In every state that admitted calls lead to, for every live block and every size of
at most `2 ^ 63`: a safe request is enough, and beyond 32 bits it is needed. -/
theorem resize_atomic (hsound : mmap.Sound)
    (hreach : Runs.Reach (Client.step (api mmap)) (Admits mmap) (Client.initial Bin) w)
    (hptr : w.Holds ptr) (hpos : 1 ≤ size) (hsize : size ≤ 2 ^ 63) :
    (PassesSafely sizeToBin mmap w.heap (request (.realloc ptr size)) →
      ∃ w' q, w.exec (api mmap) (.realloc ptr size) = some (w', q) ∧
        Reallocated w ptr size w' q) ∧
    (2 ^ 32 < size + 24 →
      (∃ w' q, w.exec (api mmap) (.realloc ptr size) = some (w', q) ∧
        Reallocated w ptr size w' q) →
      PassesSafely sizeToBin mmap w.heap (request (.realloc ptr size))) := by
  have hinv := reach_inv hsound hreach
  obtain ⟨L, h, howns, hacc⟩ := reach_accounts hsound hreach
  constructor
  · intro hsafe
    exact reallocated_of_safe hsound hinv h howns hacc hptr (by omega) hsize hsafe
  · rintro hbig ⟨w', q, hexec, hreallocated⟩
    exact safe_of_reallocated hsound hinv hptr (by omega) hsize hbig hexec hreallocated

/-- A block with data in it shrinks, by way of a new one. -/
theorem resize_atomic_example :
    ∃ w, Runs.run (Client.step (api lowRegion)) (Client.initial Bin)
        [.malloc 40, .write 4112 7] = some w ∧
      ∃ w' q, w.exec (api lowRegion) (.realloc 4112 8) = some (w', q) ∧
        Reallocated w 4112 8 w' q := by
  have hfacts : (Runs.run (Client.step (api lowRegion)) (Client.initial Bin)
      [.malloc 40, .write 4112 7]).map (fun w => (decide (w.Holds 4112),
        decide (PassesSafely sizeToBin lowRegion w.heap (request (.realloc 4112 8))))) =
      some (true, true) := by decide +kernel
  obtain ⟨w, hrun, hw⟩ := Option.map_eq_some_iff.mp hfacts
  obtain ⟨hholds, hsafe⟩ := Prod.mk.inj hw
  have hreach : Runs.Reach (Client.step (api lowRegion)) (Admits lowRegion)
      (Client.initial Bin) w := .of_run .start (by decide +kernel) hrun
  exact ⟨w, hrun, (resize_atomic lowRegion_sound hreach (of_decide_eq_true hholds) (by decide)
    (by decide)).1 (of_decide_eq_true hsafe)⟩

/-- A block that lies 13 modulo 16 is freed and handed out again. -/
theorem resize_atomic_fails : lateRegion.Sound ∧
    ∃ w, Runs.run (Client.step (api lateRegion)) (Client.initial Bin)
        [.malloc 0, .malloc 0, .free 4113] = some w ∧
      Runs.Reach (Client.step (api lateRegion)) (Client.Disciplined (2 ^ 63) (2 ^ 63))
        (Client.initial Bin) w ∧
      w.Holds 4144 ∧
      ¬ ∃ w' q, w.exec (api lateRegion) (.realloc 4144 1) = some (w', q) ∧
        Reallocated w 4144 1 w' q := by
  have hfacts : (Runs.run (Client.step (api lateRegion)) (Client.initial Bin)
      [.malloc 0, .malloc 0, .free 4113]).map (fun w => (decide (w.Holds 4144),
        (w.exec (api lateRegion) (.realloc 4144 1)).map Prod.snd)) =
      some (true, some 4113) := by decide +kernel
  obtain ⟨w, hrun, hw⟩ := Option.map_eq_some_iff.mp hfacts
  obtain ⟨hholds, hresult⟩ := Prod.mk.inj hw
  refine ⟨lateRegion_sound, w, hrun, .of_run .start (by decide +kernel) hrun,
    of_decide_eq_true hholds, ?_⟩
  rintro ⟨w', q, hexec, hreallocated⟩
  rw [hexec] at hresult
  have hq : q = 4113 := Option.some.inj hresult
  have haligned := (hreallocated.keeps.returned (by omega)).2.1
  omega

end Segregated

end AllocSitter
