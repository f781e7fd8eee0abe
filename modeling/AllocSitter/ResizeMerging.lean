/-
Coalescing across a resize in `allocator.c`.  `my_realloc` pushes the bytes it cuts
off without a look at the block behind them, and where it moves a block it relies on
`my_free`, which goes by a footer that may be stale.
-/
import AllocSitter.ResizedBlocks

namespace AllocSitter

namespace FirstFit

open ByteMemory LinkedChain Tiling

/-- The header of the left neighbour of the block at `ptr`, found from its footer. -/
def leftHeader (s : State) (ptr : Nat) : Nat :=
  let header := ptrSub ptr 4
  ptrSub header (tagSize (load s.mem (ptrSub header 4) 4))

/-- A resize to `size` bytes cuts bytes off in front of a free block. -/
def CutsBesideFree (s : State) (ptr size : Nat) : Prop :=
  chunkNeed size + 16 ≤ blockSize s.mem (ptr - 4) ∧ 0 < rightFree s ptr

/-- A resize to `size` bytes moves the block away from a left neighbour that is free
behind a used footer and is not itself the block that the list `nodes` gives. -/
def LeavesBesideStale (s : State) (ptr size : Nat) (nodes : List Nat) : Prop :=
  moves s ptr (reallocSize size) = true ∧ ¬ ResizeRefused s ptr size ∧ StaleLeft s ptr ∧
    (firstFit (blockSize s.mem) (chunkNeed size + 16) nodes).2 ≠ some (leftHeader s ptr)

section Row

variable {lo hi : Nat} {pre post : List Block} {c e : Block}

/-- The block before `c`, told by where it ends. -/
theorem last_iff (htiles : Tiles Block.addr Block.size lo (pre ++ c :: post) hi) :
    (∃ front, pre = front ++ [e]) ↔ e ∈ pre ++ c :: post ∧ e.addr + e.size = c.addr := by
  have hpos : ∀ b : Block, 16 ≤ b.size := Block.size_ge
  constructor
  · rintro ⟨front, rfl⟩
    rw [List.append_assoc] at htiles
    exact ⟨by simp, htiles.next.symm⟩
  · rintro ⟨hmem, hend⟩
    have hge := hpos e
    obtain ⟨hpre, hpost⟩ := htiles.middle
    rw [List.mem_append, List.mem_cons] at hmem
    rcases hmem with hmem | rfl | hmem
    · obtain ⟨front, back, rfl⟩ := List.append_of_mem hmem
      cases back with
      | nil => exact ⟨front, rfl⟩
      | cons d back =>
          -- A block between the two would end before `c` and begin at it.
          have hnext := hpre.next
          have hbound := (hpre.spread.bounds (show d ∈ front ++ e :: d :: back by simp)).2
          have hged := hpos d
          omega
    · omega
    · have hbound := (hpost.spread.bounds hmem).1
      have hgec := hpos c
      omega

end Row

section Cases

variable {mmap : Mmap} {s s' : State} {L L' : Layout Unit} {need p : Nat}

/-- `my_malloc` keeps a block with a stale footer unless it hands it out, and makes
no new one. -/
theorem stale_mem_iff (h : Represents theList s L)
    (hcase : MallocCase theList (fun _ stat => stat) mmap s L need s' p L') {e : Block}
    (hfree : e.used = false) (hfoot : e.foot = true) :
    e ∈ L'.blocks ↔ e ∈ L.blocks ∧
      (firstFit (blockSize s.mem) need (L.chains ())).2 ≠ some e.addr := by
  -- The block at `c` is replaced by blocks that are not stale.
  have hreplaced : ∀ {pre mid post : List Block} {c : Block}, L.blocks = pre ++ c :: post →
      (∀ b ∈ mid, b.used = true ∨ b.foot = false) →
      (firstFit (blockSize s.mem) need (L.chains ())).2 = some c.addr →
      (e ∈ pre ++ mid ++ post ↔ e ∈ L.blocks ∧
        (firstFit (blockSize s.mem) need (L.chains ())).2 ≠ some e.addr) := by
    intro pre mid post c hblocks hmid hfirst
    have htiles := (h.arena.tiles (by simp [hblocks])).2
    rw [hfirst, hblocks]
    rw [hblocks] at htiles
    constructor
    · intro hmem
      have hout : e ∈ pre ++ post := by
        rw [List.append_assoc, List.mem_append, List.mem_append] at hmem
        rcases hmem with hmem | hmem | hmem
        · exact List.mem_append_left _ hmem
        · rcases hmid e hmem with hused | hclear
          · rw [hfree] at hused
            exact absurd hused (by decide)
          · rw [hfoot] at hclear
            exact absurd hclear (by decide)
        · exact List.mem_append_right _ hmem
      have hin : e ∈ pre ++ [c] ++ post := mem_row_of_mem hout
      refine ⟨by simpa using hin, fun heq => ?_⟩
      have hapart := htiles.spread.apart hout
      have haddr := Option.some.inj heq
      have hge := e.size_ge
      have hge' := c.size_ge
      omega
    · rintro ⟨hmem, hne⟩
      exact mem_row_of_mem (mem_row_of_ne hmem fun heq => hne (by rw [heq]))
  cases hcase with
  | @split pre post front back c hge hmod hcut hblocks hlist hfront =>
      apply hreplaced hblocks
      · intro b hb
        simp only [List.mem_cons, List.not_mem_nil, or_false] at hb
        rcases hb with rfl | rfl
        · exact Or.inl rfl
        · exact Or.inr rfl
      · rw [firstFit_chains h hlist hfront (by omega)]
  | @whole pre post front back c hsize hblocks hlist hfront =>
      apply hreplaced hblocks
      · intro b hb
        rw [List.mem_singleton] at hb
        exact Or.inl (by rw [hb]; rfl)
      · rw [firstFit_chains h hlist hfront (by omega)]
  | @extend top hge hmod hmiss =>
      rw [firstFit_chains_none h hmiss]
      have hne : e ≠ Block.fresh (top + padding L) need true hge hmod := by
        intro heq
        rw [heq] at hfree
        exact absurd hfree (by simp [Block.fresh])
      simp [hne]
  | fail hmiss =>
      rw [firstFit_chains_none h hmiss]
      simp

variable {pre post : List Block} {c : Block}
  (h : Represents theList s L) (hblocks : L.blocks = pre ++ c :: post)
  (hused : c.used = true)

include h hblocks hused

omit hused in
/-- The left neighbour before and after the request of a resize that moves. -/
theorem stale_left_iff {pre₁ post₁ : List Block}
    (hcase : MallocCase theList (fun _ stat => stat) mmap s L need s' p L') (hp : p ≠ 0)
    (hblocks' : L'.blocks = pre₁ ++ c :: post₁) :
    (∃ front e, pre₁ = front ++ [e] ∧ e.used = false ∧ e.foot = true) ↔
      ∃ front e, pre = front ++ [e] ∧ e.used = false ∧ e.foot = true ∧
        (firstFit (blockSize s.mem) need (L.chains ())).2 ≠ some e.addr := by
  obtain ⟨lo, hi, htiles'⟩ := tiles_of_case h hcase hp
  have htiles := (h.arena.tiles (by simp [hblocks])).2
  rw [hblocks] at htiles
  rw [hblocks'] at htiles'
  constructor
  · rintro ⟨front, e, hfront, hfree, hfoot⟩
    obtain ⟨hmem, hend⟩ := (last_iff htiles').mp ⟨front, hfront⟩
    rw [← hblocks'] at hmem
    obtain ⟨hmem, hother⟩ := (stale_mem_iff h hcase hfree hfoot).mp hmem
    rw [hblocks] at hmem
    obtain ⟨front', hfront'⟩ := (last_iff htiles).mpr ⟨hmem, hend⟩
    exact ⟨front', e, hfront', hfree, hfoot, hother⟩
  · rintro ⟨front, e, hfront, hfree, hfoot, hother⟩
    obtain ⟨hmem, hend⟩ := (last_iff htiles).mp ⟨front, hfront⟩
    rw [← hblocks] at hmem
    have hmem' := (stale_mem_iff h hcase hfree hfoot).mpr ⟨hmem, hother⟩
    rw [hblocks'] at hmem'
    obtain ⟨front', hfront'⟩ := (last_iff htiles').mpr ⟨hmem', hend⟩
    exact ⟨front', e, hfront', hfree, hfoot⟩

/-- Which resizes of a live block leave no free neighbours in a row without any. -/
theorem merged_resize {newSize q : Nat}
    (hcase : ReallocCase mmap s L pre c post newSize s' q L') (hmerged : Merged L.blocks) :
    Merged L'.blocks ↔
      ¬ (newSize + 16 ≤ c.size ∧ ∃ d rest, post = d :: rest ∧ d.used = false) ∧
      ¬ (moves s c.payload newSize = true ∧ q ≠ 0 ∧
        ∃ front e, pre = front ++ [e] ∧ e.used = false ∧ e.foot = true ∧
          (firstFit (blockSize s.mem) (newSize + 16) (L.chains ())).2 ≠ some e.addr) := by
  have hmoves : moves s c.payload newSize = true ↔ _ := moves_iff h hblocks hused
  have hrow := hmerged
  rw [hblocks, ← List.singleton_append, ← List.append_assoc, merged_cons] at hrow
  obtain ⟨hpre, hpost, _⟩ := hrow
  -- A cut block between its neighbours: only the one to the right matters.
  have hcut : ∀ {t r : Block} {back : List Block}, t.used = true → r.used = false →
      Merged back → (Merged (pre ++ [t, r] ++ back) ↔ ∀ b ∈ back.head?, b.used = true) := by
    intro t r back ht hr hback
    rw [merged_middle (by simp)]
    constructor
    · rintro ⟨_, _, _, _, hright⟩ b hb
      exact (hright r rfl b hb).resolve_left (by simp [hr])
    · intro hhead
      refine ⟨hpre, List.isChain_cons_cons.mpr ⟨Or.inl ht, List.isChain_singleton _⟩, hback,
        fun a _ b hb => Or.inr ?_, fun a _ b hb => Or.inr (hhead b hb)⟩
      rw [← Option.some.inj hb]
      exact ht
  cases hcase with
  | same hfit hslack =>
      refine iff_of_true hmerged ⟨fun hlarge => by omega, fun hmove => ?_⟩
      have hgrow := (hmoves.mp hmove.1).1
      omega
  | shrink hge hmod hfit =>
      have hstays : ¬ (moves s c.payload newSize = true) := by
        intro hmove
        have hgrow := (hmoves.mp hmove).1
        omega
      rw [hcut rfl rfl hpost]
      constructor
      · intro hhead
        refine ⟨?_, fun hmove => hstays hmove.1⟩
        rintro ⟨_, d, rest, rfl, hfree⟩
        have hdused := hhead d rfl
        rw [hfree] at hdused
        exact absurd hdused (by decide)
      · rintro ⟨hnone, _⟩ b hb
        obtain ⟨rest, hrest⟩ := List.head?_eq_some_iff.mp hb
        by_contra hbused
        exact hnone ⟨hfit, b, rest, hrest, by simpa using hbused⟩
  | @growCut _ d rest hge hmod hgrow hright hfree hfit =>
      subst hright
      have hsplit := List.isChain_cons.mp hpost
      have hjoin : (c.join d).size = c.size + d.size := rfl
      refine iff_of_true ((hcut rfl rfl hsplit.2).mpr ?_) ⟨fun hlarge => by omega, ?_⟩
      · intro b hb
        exact (hsplit.1 b hb).resolve_left (by simp [hfree])
      · rintro ⟨hmove, _⟩
        have hsmall := (hmoves.mp hmove).2 d rest rfl hfree
        omega
  | @growWhole _ d rest hgrow hright hfree hexact =>
      subst hright
      have hjoin : (c.join d).size = c.size + d.size := rfl
      refine iff_of_true (merged_cons.mpr ⟨hpre, (List.isChain_cons.mp hpost).2, fun hfalse => ?_⟩)
        ⟨fun hlarge => by omega, ?_⟩
      · simp [Block.taken, Block.fresh] at hfalse
      · rintro ⟨hmove, _⟩
        have hsmall := (hmoves.mp hmove).2 d rest rfl hfree
        omega
  | refused hgrow =>
      exact iff_of_true hmerged ⟨fun hlarge => by omega, fun hmove => hmove.2.1 rfl⟩
  | @moved s₁ _ L₁ u c₁ c₂ pre₁ post₁ pre' post' list₁ list₂ hgrow hneighbour hmalloc hgain
      hroom hblocks₁ hmerge hmerge' =>
      have hnull : u.payload ≠ 0 := by
        unfold Block.payload
        omega
      have hbetween := merged_malloc hmalloc (h.lists_free ()) hmerged
      rw [hblocks₁, ← List.singleton_append, ← List.append_assoc] at hbetween
      rw [merged_free hmerge hmerge' hbetween,
        stale_left_iff h hblocks hmalloc hnull hblocks₁]
      have hmove := hmoves.mpr ⟨hgrow, hneighbour⟩
      constructor
      · intro hnone
        exact ⟨fun hlarge => by omega, fun hbad => hnone hbad.2.2⟩
      · rintro ⟨_, hnone⟩ hbad
        exact hnone ⟨hmove, hnull, hbad⟩

theorem cutsBesideFree_iff {size : Nat} :
    CutsBesideFree s c.payload size ↔
      chunkNeed size + 16 ≤ c.size ∧ ∃ d rest, post = d :: rest ∧ d.used = false := by
  have hc : c ∈ L.blocks := by simp [hblocks]
  have hpayload : c.payload - 4 = c.addr := Nat.add_sub_cancel c.addr 4
  unfold CutsBesideFree
  rw [hpayload, h.blockSize_eq hc]
  apply and_congr_right
  intro _
  rcases rightFree_cases h hblocks hused with ⟨d, rest, hpost, hfree, hsize⟩ | ⟨hnone, hsize⟩
  · have hge := d.size_ge
    exact iff_of_true (by omega) ⟨d, rest, hpost, hfree⟩
  · refine iff_of_false (by omega) ?_
    rintro ⟨d, rest, hpost, hfree⟩
    exact absurd (hnone d rest hpost) (by simp [hfree])

omit hused in
theorem leftHeader_eq {front : List Block} {e : Block} (hpre : pre = front ++ [e]) :
    leftHeader s c.payload = e.addr := by
  have hc : c ∈ L.blocks := by simp [hblocks]
  have he : e ∈ L.blocks := by simp [hblocks, hpre]
  obtain ⟨hlow, hhigh, _, hcur, _⟩ := h.room.bounds hc
  have hnext : c.addr = e.addr + e.size := by
    have htiles := (h.arena.tiles (List.ne_nil_of_mem hc)).2
    rw [hblocks, hpre, List.append_assoc] at htiles
    exact htiles.next
  have hge := e.size_ge
  have hfooter : ptrSub c.addr 4 = e.addr + e.size - 4 := by
    rw [ptrSub_of_le (by omega) (by omega), hnext]
  simp only [leftHeader, h.header_eq hc, hfooter, (h.threaded.tagged e he).tagSize_tail]
  rw [ptrSub_of_le (by omega) (by omega)]
  omega

end Cases

section Resize

variable {mmap : Mmap} {w : Client Unit} {ptr size : Nat}

/-- A resize that reaches the arena safely keeps the free blocks apart unless it cuts
or leaves bytes beside a free block that it does not see. -/
theorem freeApart_resize (hsound : mmap.Sound) (hinv : Inv theList w)
    (hapart : FreeApart w.heap) (hptr : w.Holds ptr) (hpos : size ≠ 0)
    (hsize : size ≤ 2 ^ 32 - 24)
    (hsafe : PassesSafely theList mmap w.heap (request w.heap (.realloc ptr size)))
    {nodes : List Nat} (hnodes : Linked (nextFree w.heap.mem) 0 (w.heap.freeHead ()) nodes) :
    ∃ s' q, myRealloc mmap w.heap ptr size = some (s', q) ∧
      (FreeApart s' ↔ ¬ CutsBesideFree w.heap ptr size ∧
        ¬ LeavesBesideStale w.heap ptr size nodes) := by
  have hrefused : ∀ {s' : State} {q : Nat}, myRealloc mmap w.heap ptr size = some (s', q) →
      (q = 0 ↔ ResizeRefused w.heap ptr size) := by
    intro s' q heq
    constructor
    · rintro rfl
      exact (myRealloc_null hsound hinv hptr hpos heq).1
    · intro hrefused
      obtain ⟨s'', hnull⟩ := myRealloc_refused hsound hinv hptr hpos hrefused
      exact (Prod.mk.inj (Option.some.inj (heq.symm.trans hnull))).2
  obtain ⟨L, h, howns⟩ := hinv
  obtain ⟨n, hmem⟩ := hptr
  obtain ⟨c, hc, rfl, _⟩ := howns.block_of_mem hmem
  obtain ⟨hrow, hused⟩ := Layout.mem_usedBlocks.mp hc
  obtain ⟨pre, post, hblocks⟩ := List.append_of_mem hrow
  have hzero := h.payload_ne_zero hc
  have hround := reallocSize_eq (show size + 24 ≤ 2 ^ 32 by omega)
  obtain ⟨hge, hmod, _, hbound, _⟩ := chunkNeed_bounds (show size + 40 ≤ 2 ^ 64 by omega)
  obtain ⟨s', q, L', heq, hcase, hrep, _⟩ :=
    resizeBlock_spec h hblocks hused hsound hge hmod (by omega) fun hmoves => by
      rw [← hround] at hmoves ⊢
      exact hsafe _ (by simp [request, hzero, hpos, hmoves])
  have hcall : myRealloc mmap w.heap c.payload size = some (s', q) := by
    rw [← heq, ← hround]
    simp [myRealloc, hzero, hpos]
  refine ⟨s', q, hcall, ?_⟩
  rw [freeApart_iff hrep, merged_resize h hblocks hused hcase ((freeApart_iff h).mp hapart),
    cutsBesideFree_iff h hblocks hused, hnodes.unique (h.threaded.linked ())]
  apply and_congr_right
  intro _
  apply not_congr
  unfold LeavesBesideStale
  rw [hround, ← hrefused hcall, staleLeft_iff h hblocks hused]
  constructor
  · rintro ⟨hmoves, hq, front, e, hpre, hfree, hfoot, hother⟩
    rw [leftHeader_eq h hblocks hpre]
    exact ⟨hmoves, hq, ⟨front, e, hpre, hfree, hfoot⟩, hother⟩
  · rintro ⟨hmoves, hq, ⟨front, e, hpre, hfree, hfoot⟩, hother⟩
    rw [leftHeader_eq h hblocks hpre] at hother
    exact ⟨hmoves, hq, front, e, hpre, hfree, hfoot, hother⟩

/-- In every state that admitted calls lead to and in which the free blocks lie apart,
for every live block and every size that fits into a tag: they lie apart after the
resize exactly under these three conditions. -/
theorem resize_coalescing (hsound : mmap.Sound)
    (hreach : Runs.Reach (Client.step (api mmap)) (Admits mmap) (Client.initial Unit) w)
    (hapart : FreeApart w.heap) (hptr : w.Holds ptr) (hpos : 1 ≤ size)
    (hsize : size ≤ 2 ^ 32 - 24) :
    ∃ nodes, Linked (nextFree w.heap.mem) 0 (w.heap.freeHead ()) nodes ∧
      ((∃ s' q, myRealloc mmap w.heap ptr size = some (s', q) ∧ FreeApart s') ↔
        PassesSafely theList mmap w.heap (request w.heap (.realloc ptr size)) ∧
          ¬ CutsBesideFree w.heap ptr size ∧ ¬ LeavesBesideStale w.heap ptr size nodes) := by
  have hinv := reach_inv hsound hreach
  obtain ⟨L, h, howns⟩ := id hinv
  refine ⟨L.chains (), h.threaded.linked (), ?_⟩
  have hresize := fun hsafe => freeApart_resize hsound hinv hapart hptr (by omega) hsize hsafe
    (h.threaded.linked ())
  constructor
  · rintro ⟨s', q, heq, headers, hheaders, hchain⟩
    have hsafe : PassesSafely theList mmap w.heap (request w.heap (.realloc ptr size)) := by
      by_contra hnot
      obtain ⟨n, hmem⟩ := hptr
      obtain ⟨c, hc, rfl, _⟩ := howns.block_of_mem hmem
      obtain ⟨hlo, htop⟩ := myRealloc_wraps h hc (by omega) hnot heq
      rw [Headers, if_neg hlo] at hheaders
      have hle := hheaders.1.le
      omega
    obtain ⟨s'', q', heq', hiff⟩ := hresize hsafe
    obtain ⟨rfl, rfl⟩ := Prod.mk.inj (Option.some.inj (heq.symm.trans heq'))
    exact ⟨hsafe, hiff.mp ⟨headers, hheaders, hchain⟩⟩
  · rintro ⟨hsafe, hkeeps⟩
    obtain ⟨s', q, heq, hiff⟩ := hresize hsafe
    exact ⟨s', q, heq, hiff.mpr hkeeps⟩

end Resize

/-- A block grows into a new one, with nothing free around it. -/
theorem resize_coalescing_example :
    ∃ w, Runs.run (Client.step (api lowRegion)) (Client.initial Unit)
        [.malloc 40, .malloc 8] = some w ∧ FreeApart w.heap ∧
      ∃ s' q, myRealloc lowRegion w.heap 4112 100 = some (s', q) ∧ FreeApart s' := by
  have hfacts : (Runs.run (Client.step (api lowRegion)) (Client.initial Unit)
      [.malloc 40, .malloc 8]).map (fun w => (decide (w.Holds 4112),
        decide (PassesSafely theList lowRegion w.heap (request w.heap (.realloc 4112 100))),
        blockSize w.heap.mem 4108, decide (StaleLeft w.heap 4112))) =
      some (true, true, 48, false) := by decide +kernel
  obtain ⟨w, hrun, hw⟩ := Option.map_eq_some_iff.mp hfacts
  simp only [Prod.mk.injEq] at hw
  obtain ⟨hholds, hsafe, hblock, hstale⟩ := hw
  have hcoalesces : Runs.Reach (Client.step (api lowRegion)) (Coalesces lowRegion)
      (Client.initial Unit) w := .of_run .start (by decide +kernel) hrun
  have hapart := (freeApart_run lowRegion_sound hcoalesces).2
  obtain ⟨nodes, _, hiff⟩ := resize_coalescing lowRegion_sound
    (hcoalesces.mono fun _ _ hcall => hcall.1) hapart (of_decide_eq_true hholds)
    (show 1 ≤ 100 by decide) (by decide)
  refine ⟨w, hrun, hapart, hiff.mpr ⟨of_decide_eq_true hsafe, ?_, ?_⟩⟩
  · rintro ⟨hlarge, _⟩
    rw [show 4112 - 4 = 4108 from rfl, hblock] at hlarge
    exact absurd hlarge (by decide)
  · exact fun hleaves => of_decide_eq_false hstale hleaves.2.2.1

theorem not_freeApart {s : State} {front back : List Nat} {a b : Nat}
    (hheaders : Headers s (front ++ a :: b :: back)) (ha : load s.mem a 4 % 2 = 0)
    (hb : load s.mem b 4 % 2 = 0) : ¬ FreeApart s := by
  rintro ⟨headers, hother, hchain⟩
  rw [hother.unique hheaders, List.isChain_append] at hchain
  have hpair := (List.isChain_cons_cons.mp hchain.2.1).1
  omega

/-- Bytes are cut off in front of a free block; and a block moves away from a free
block whose footer still says used. -/
theorem resize_coalescing_fails : lowRegion.Sound ∧
    (∃ w, Runs.run (Client.step (api lowRegion)) (Client.initial Unit)
        [.malloc 24, .malloc 8, .free 4144] = some w ∧
      Runs.Reach (Client.step (api lowRegion)) (Client.Disciplined (2 ^ 63) (2 ^ 32 - 24))
        (Client.initial Unit) w ∧
      FreeApart w.heap ∧ w.Holds 4112 ∧
      ∃ s', myRealloc lowRegion w.heap 4112 8 = some (s', 4112) ∧ ¬ FreeApart s') ∧
    ∃ w, Runs.run (Client.step (api lowRegion)) (Client.initial Unit)
        [.malloc 8, .malloc 8, .free 4112] = some w ∧
      Runs.Reach (Client.step (api lowRegion)) (Client.Disciplined (2 ^ 63) (2 ^ 32 - 24))
        (Client.initial Unit) w ∧
      FreeApart w.heap ∧ w.Holds 4128 ∧
      ∃ s', myRealloc lowRegion w.heap 4128 24 = some (s', 4144) ∧ ¬ FreeApart s' := by
  have hfirst : (Runs.run (Client.step (api lowRegion)) (Client.initial Unit)
      [.malloc 24, .malloc 8, .free 4144]).map (fun w => (decide (w.Holds 4112),
        (myRealloc lowRegion w.heap 4112 8).map fun r => (r.2, [r.1.heapLo, r.1.heapHi,
          load r.1.mem 4108 4, load r.1.mem 4124 4, load r.1.mem 4140 4]))) =
      some (true, some (4112, [4108, 4156, 17, 16, 16])) := by decide +kernel
  have hsecond : (Runs.run (Client.step (api lowRegion)) (Client.initial Unit)
      [.malloc 8, .malloc 8, .free 4112]).map (fun w => (decide (w.Holds 4128),
        (myRealloc lowRegion w.heap 4128 24).map fun r => (r.2, [r.1.heapLo, r.1.heapHi,
          load r.1.mem 4108 4, load r.1.mem 4124 4, load r.1.mem 4140 4]))) =
      some (true, some (4144, [4108, 4188, 16, 16, 49])) := by decide +kernel
  have hcoalesced : ∀ {calls : List Call} {w : Client Unit},
      Runs.RunOk (Client.step (api lowRegion)) (Coalesces lowRegion) (Client.initial Unit) calls →
      Runs.run (Client.step (api lowRegion)) (Client.initial Unit) calls = some w →
      Runs.Reach (Client.step (api lowRegion)) (Client.Disciplined (2 ^ 63) (2 ^ 32 - 24))
        (Client.initial Unit) w ∧ FreeApart w.heap := by
    intro calls w hok hrun
    have hreach : Runs.Reach (Client.step (api lowRegion)) (Coalesces lowRegion)
        (Client.initial Unit) w := .of_run .start hok hrun
    exact ⟨hreach.mono fun _ _ hcall => hcall.1.1, (freeApart_run lowRegion_sound hreach).2⟩
  refine ⟨lowRegion_sound, ?_, ?_⟩
  · obtain ⟨w, hrun, hw⟩ := Option.map_eq_some_iff.mp hfirst
    obtain ⟨hholds, hresult⟩ := Prod.mk.inj hw
    obtain ⟨⟨s', q⟩, hcall, hs'⟩ := Option.map_eq_some_iff.mp hresult
    simp only [Prod.mk.injEq, List.cons.injEq, and_true] at hs'
    obtain ⟨rfl, hlo, hhi, htag₁, htag₂, htag₃⟩ := hs'
    obtain ⟨hreach, hapart⟩ := hcoalesced (by decide +kernel) hrun
    refine ⟨w, hrun, hreach, hapart, of_decide_eq_true hholds, s', hcall, ?_⟩
    have hheaders : Headers s' ([4108] ++ 4124 :: 4140 :: []) := by
      simp [Headers, Tiles, blockSize, hlo, hhi, htag₁, htag₂, htag₃, tagSize]
    exact not_freeApart hheaders (by rw [htag₂]) (by rw [htag₃])
  · obtain ⟨w, hrun, hw⟩ := Option.map_eq_some_iff.mp hsecond
    obtain ⟨hholds, hresult⟩ := Prod.mk.inj hw
    obtain ⟨⟨s', q⟩, hcall, hs'⟩ := Option.map_eq_some_iff.mp hresult
    simp only [Prod.mk.injEq, List.cons.injEq, and_true] at hs'
    obtain ⟨rfl, hlo, hhi, htag₁, htag₂, htag₃⟩ := hs'
    obtain ⟨hreach, hapart⟩ := hcoalesced (by decide +kernel) hrun
    refine ⟨w, hrun, hreach, hapart, of_decide_eq_true hholds, s', hcall, ?_⟩
    have hheaders : Headers s' ([] ++ 4108 :: 4124 :: [4140]) := by
      simp [Headers, Tiles, blockSize, hlo, hhi, htag₁, htag₂, htag₃, tagSize]
    exact not_freeApart hheaders (by rw [htag₁]) (by rw [htag₂])

end FirstFit

end AllocSitter
