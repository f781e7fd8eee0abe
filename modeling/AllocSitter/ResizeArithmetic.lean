/-
`my_realloc` of `allocator.c` for sizes of the whole range.  Its mask is a 32-bit
constant, so from `2 ^ 32 - 23` on it works with a size that has lost its upper
bits, and what it returns has room for the request only if it returns `NULL`.
-/
import AllocSitter.RequestArithmetic

namespace AllocSitter

namespace FirstFit

open ByteMemory LinkedChain Tiling

/-- `my_realloc(ptr, size)` returns; a pointer other than `NULL` heads a used block
with room for `size` bytes that is not on the free list, and the other live blocks
keep their tags; with `NULL` the block at `ptr` is unchanged. -/
def ResizeHonest (mmap : Mmap) (w : Client Unit) (ptr size : Nat) : Prop :=
  ∃ s' q, myRealloc mmap w.heap ptr size = some (s', q) ∧
    (q ≠ 0 → load s'.mem (ptrSub q 4) 4 % 2 = 1 ∧
      size + 8 ≤ tagSize (load s'.mem (ptrSub q 4) 4) ∧
      (∀ nodes, Linked (nextFree s'.mem) 0 (s'.freeHead ()) nodes → ptrSub q 4 ∉ nodes) ∧
      ∀ other, w.Holds other → other ≠ ptr →
        load s'.mem (other - 4) 4 = load w.heap.mem (other - 4) 4 ∧
        load s'.mem (other - 4 + w.chunk other - 4) 4 =
          load w.heap.mem (other - 4 + w.chunk other - 4) 4) ∧
    (q = 0 → SameOn w.heap.mem s'.mem (ptr - 4) (w.chunk ptr))

/-- The size that `my_realloc` works with has to move the block, and no block can
be had for it: none on the list is large enough, and the arena has no room. -/
def ResizeRefused (s : State) (ptr size : Nat) : Prop :=
  moves s ptr (reallocSize size) = true ∧ ScanMisses theList s (reallocSize size) ∧
    s.arenaEnd < s.arenaCur + chunkNeed (reallocSize size) ∧
    s.arenaCur + chunkNeed (reallocSize size) < 2 ^ 64

theorem reallocSize_bounds (size : Nat) :
    reallocSize size % 16 = 0 ∧ reallocSize size + 16 ≤ 2 ^ 32 := by
  unfold reallocSize tagSize
  omega

section Parts

variable {mmap : Mmap} {s s' : State} {ptr newSize q : Nat}

theorem resizeBlock_moves (hmoves : moves s ptr newSize = true) :
    resizeBlock mmap s ptr newSize =
      moveBlock mmap s ptr (tagSize (load s.mem (ptrSub ptr 4) 4)) newSize := by
  simp only [moves, Bool.and_eq_true, decide_eq_true_eq, Bool.not_eq_true',
    decide_eq_false_iff_not] at hmoves
  simp only [resizeBlock, hmoves.1, hmoves.2, ↓reduceIte]

theorem moveBlock_snd {oldSize : Nat} (heq : moveBlock mmap s ptr oldSize newSize = some (s', q)) :
    ∃ s₁, myMalloc mmap s newSize = some (s₁, q) ∧ (q = 0 → s' = s₁) := by
  unfold moveBlock at heq
  obtain ⟨⟨s₁, p⟩, hmalloc, hrest⟩ := Option.bind_eq_some_iff.mp heq
  dsimp only at hrest
  by_cases hp : p = 0
  · rw [if_pos hp] at hrest
    obtain ⟨rfl, rfl⟩ := Prod.mk.inj (Option.some.inj hrest)
    exact ⟨s₁, hp ▸ hmalloc, fun _ => rfl⟩
  · rw [if_neg hp] at hrest
    obtain ⟨s₂, _, hlast⟩ := Option.bind_eq_some_iff.mp hrest
    obtain ⟨_, rfl⟩ := Prod.mk.inj (Option.some.inj hlast)
    exact ⟨s₁, hmalloc, fun hq => absurd hq hp⟩

/-- A resize in place returns the pointer it was given. -/
theorem resizeBlock_stays (hstays : moves s ptr newSize = false)
    (heq : resizeBlock mmap s ptr newSize = some (s', q)) : q = ptr := by
  simp only [moves, Bool.and_eq_false_iff, decide_eq_false_iff_not, Bool.not_eq_false',
    decide_eq_true_eq] at hstays
  unfold resizeBlock at heq
  dsimp only at heq
  split at heq
  · next hgrow =>
      rw [if_pos (hstays.resolve_left fun hfit => hfit hgrow)] at heq
      unfold growInPlace at heq
      obtain ⟨s₁, _, hrest⟩ := Option.bind_eq_some_iff.mp heq
      split at hrest
      · exact (Prod.mk.inj (Option.some.inj hrest)).2.symm
      · exact (Prod.mk.inj (Option.some.inj hrest)).2.symm
  · unfold shrinkInPlace at heq
    dsimp only at heq
    split at heq
    · exact (Prod.mk.inj (Option.some.inj heq)).2.symm
    · exact (Prod.mk.inj (Option.some.inj heq)).2.symm

end Parts

section Heap

variable {mmap : Mmap} {s : State} {L : Layout Unit} {newSize : Nat}

/-- What the guard of `arena_extend` says of a sum that may wrap. -/
theorem refuses_at_top {cur stop need : Nat} (hcur : cur ≤ stop) (hstop : stop < 2 ^ 64)
    (hneed : 0 < need ∧ need < 2 ^ 64) :
    need ≠ 0 ∧ stop < ptrAdd cur need ↔ stop < cur + need ∧ cur + need < 2 ^ 64 := by
  unfold ptrAdd
  omega

/-- `my_malloc` for a rounded size, with blocks on the heap: `NULL` exactly when
the list and the arena have no room, and then the memory is unchanged. -/
theorem myMalloc_null_iff (hsound : mmap.Sound) (h : Represents theList s L)
    (hne : L.blocks ≠ []) (hmod : newSize % 16 = 0) (hlt : newSize + 16 ≤ 2 ^ 32) :
    ∃ s₁ p, myMalloc mmap s newSize = some (s₁, p) ∧
      (p = 0 ↔ ScanMisses theList s newSize ∧ s.arenaEnd < s.arenaCur + chunkNeed newSize ∧
        s.arenaCur + chunkNeed newSize < 2 ^ 64) ∧
      (p = 0 → s₁.mem = s.mem) := by
  have hsize : newSize + 40 ≤ 2 ^ 64 := by omega
  have hneed := chunkNeed_rounded hmod hsize
  have hbase := h.room.base_ne_zero hne
  have hpad := h.arena.padding_eq hbase
  have hpadding : padding L = 0 := by simp [padding, hne]
  have hcur := (h.arena.top hbase).2
  have hend := (h.arena.region hbase).2.2
  rcases mallocWith_cases (fun _ stat => stat) mmap h newSize with
    ⟨c, _, _, hfound, s', heq⟩ | ⟨_, hmiss, hmalloc⟩
  · refine ⟨s', _, heq, iff_of_false (by omega) fun hnull => hfound hnull.1, ?_⟩
    intro hp
    omega
  · have h₁ := h.addScanSteps (L.lists (theList (chunkNeed newSize))).length
    have hrefuses : ArenaRefuses mmap s (chunkNeed newSize) ↔
        s.arenaEnd < s.arenaCur + chunkNeed newSize ∧
          s.arenaCur + chunkNeed newSize < 2 ^ 64 := by
      simp only [ArenaRefuses, hbase, ↓reduceIte, hpad, hpadding, Nat.add_zero]
      exact refuses_at_top (by omega) (by omega) (by omega)
    have hsafe : s.arenaCur + chunkNeed newSize < 2 ^ 64 →
        RequestSafe theList mmap s newSize := by
      intro hsum _
      simp only [ArenaSafe, hbase, ↓reduceIte, hpad, hpadding]
      exact hsum
    have houtcome := extendHeap_outcome (fun _ stat => stat) hsound h₁ (chunkNeed_le newSize)
    generalize extendHeap (fun _ stat => stat) mmap
      (AllocSitter.addScanSteps s (L.lists (theList (chunkNeed newSize))).length)
      (chunkNeed newSize) = result at hmalloc houtcome
    obtain ⟨s₁, p⟩ := result
    refine ⟨s₁, p, hmalloc, ?_⟩
    rcases houtcome with ⟨hyes, hnull⟩ | ⟨hno, s', header, m, heq, _⟩
    · have hroom := hrefuses.mp hyes
      refine ⟨iff_of_true hnull ⟨hmiss, hroom⟩, fun hp => ?_⟩
      obtain ⟨s₂, p', L', heq, hcase, _⟩ := myMalloc_spec hsound h hsize (hsafe hroom.2)
      rw [show myMalloc mmap s newSize = some (s₁, p) from hmalloc] at heq
      obtain ⟨rfl, rfl⟩ := Prod.mk.inj (Option.some.inj heq)
      cases hcase with
      | split => omega
      | whole => omega
      | extend => omega
      | fail _ hwhy _ =>
          rcases hwhy with ⟨_, _, rfl⟩ | ⟨hunmapped, _⟩
          · rfl
          · exact absurd hunmapped hbase
    · obtain ⟨rfl, rfl⟩ := Prod.mk.inj heq
      refine ⟨iff_of_false (by omega) fun hnull => hno ?_, fun hp => by omega⟩
      exact hrefuses.mpr hnull.2

end Heap

section Honest

variable {mmap : Mmap} {w : Client Unit} {ptr size : Nat}

/-- With `NULL` from a resize of a live block comes an unchanged memory, and only
when the request is refused. -/
theorem myRealloc_null (hsound : mmap.Sound) (hinv : Inv theList w) (hptr : w.Holds ptr)
    (hpos : size ≠ 0) {s' : State} (heq : myRealloc mmap w.heap ptr size = some (s', 0)) :
    ResizeRefused w.heap ptr size ∧ s'.mem = w.heap.mem := by
  have hnull : ptr ≠ 0 := fun hzero => hinv.null_not_held (hzero ▸ hptr)
  obtain ⟨L, h, howns⟩ := hinv
  obtain ⟨n, hmem⟩ := hptr
  obtain ⟨c, hc, rfl, _⟩ := howns.block_of_mem hmem
  have hne : L.blocks ≠ [] := List.ne_nil_of_mem (Layout.mem_usedBlocks.mp hc).1
  obtain ⟨hmod, hlt⟩ := reallocSize_bounds size
  simp only [myRealloc, hnull, hpos, ↓reduceIte] at heq
  cases hmoves : moves w.heap c.payload (reallocSize size) with
  | false => exact absurd (resizeBlock_stays hmoves heq).symm hnull
  | true =>
      rw [resizeBlock_moves hmoves] at heq
      obtain ⟨s₁, hmalloc, hsame⟩ := moveBlock_snd heq
      obtain ⟨s₂, p, hmalloc', hiff, hkeeps⟩ := myMalloc_null_iff hsound h hne hmod hlt
      rw [hmalloc] at hmalloc'
      obtain ⟨rfl, rfl⟩ := Prod.mk.inj (Option.some.inj hmalloc')
      rw [hsame rfl]
      exact ⟨⟨hmoves, hiff.mp rfl⟩, hkeeps rfl⟩

/-- A refused request returns `NULL`. -/
theorem myRealloc_refused (hsound : mmap.Sound) (hinv : Inv theList w) (hptr : w.Holds ptr)
    (hpos : size ≠ 0) (hrefused : ResizeRefused w.heap ptr size) :
    ∃ s', myRealloc mmap w.heap ptr size = some (s', 0) := by
  have hnull : ptr ≠ 0 := fun hzero => hinv.null_not_held (hzero ▸ hptr)
  obtain ⟨L, h, howns⟩ := hinv
  obtain ⟨n, hmem⟩ := hptr
  obtain ⟨c, hc, rfl, _⟩ := howns.block_of_mem hmem
  have hne : L.blocks ≠ [] := List.ne_nil_of_mem (Layout.mem_usedBlocks.mp hc).1
  obtain ⟨hmod, hlt⟩ := reallocSize_bounds size
  obtain ⟨hmoves, hroom⟩ := hrefused
  obtain ⟨s₁, p, hmalloc, hiff, _⟩ := myMalloc_null_iff hsound h hne hmod hlt
  have hp : p = 0 := hiff.mpr hroom
  refine ⟨s₁, ?_⟩
  simp [myRealloc, hnull, hpos, resizeBlock_moves hmoves, moveBlock, hmalloc, hp]

/-- A resize to what fits into a tag is honest if it reaches the arena safely. -/
theorem resizeHonest_small (hsound : mmap.Sound) (hinv : Inv theList w) (hptr : w.Holds ptr)
    (hpos : size ≠ 0) (hsmall : size + 24 ≤ 2 ^ 32)
    (hsafe : PassesSafely theList mmap w.heap (request w.heap (.realloc ptr size))) :
    ResizeHonest mmap w ptr size := by
  have hnull : ptr ≠ 0 := fun hzero => hinv.null_not_held (hzero ▸ hptr)
  have hbound : ∀ n, request w.heap (.realloc ptr size) = some n → n + 40 ≤ 2 ^ 64 := by
    intro n hn
    have hle := (reallocSize_bounds size).2
    simp only [request, hnull, hpos, ↓reduceIte, Option.ite_none_right_eq_some] at hn
    have heq := Option.some.inj hn.2
    omega
  have hok : Safe mmap w.heap (.realloc ptr size) := by
    refine ⟨fun n hn => ⟨hbound n hn, hsafe n hn⟩, ?_⟩
    intro ptr' size' hcall _
    obtain ⟨rfl, rfl⟩ := Call.realloc.inj hcall
    exact hsmall
  obtain ⟨L, h, howns⟩ := id hinv
  obtain ⟨s', q, heq, L', hrep, heffect, hkept⟩ :=
    (contract hsound).realloc h (howns.owned (Or.inr hptr)) hok
  refine ⟨s', q, heq, fun hq => ?_, fun hq => ?_⟩
  · obtain ⟨u, hu, rfl, hfit⟩ : ∃ u ∈ Layout.usedBlocks L'.blocks, q = u.payload ∧
        size + 8 ≤ u.size := by
      generalize Layout.usedBlocks L'.blocks = after at heffect
      cases heffect with
      | keep => exact absurd rfl hq
      | gain hcall => exact absurd hcall hnull
      | lose hcall => exact absurd hcall.2 hpos
      | @swap c u rest _ _ hafter hfit =>
          exact ⟨u, hafter.mem_iff.mpr List.mem_cons_self, rfl, hfit⟩
    obtain ⟨hrow, hused⟩ := Layout.mem_usedBlocks.mp hu
    have htagged := hrep.threaded.tagged u hrow
    rw [hrep.header_eq hrow, htagged.tagSize_head]
    refine ⟨?_, hfit, ?_, ?_⟩
    · rw [htagged.flag_head, hused]
      rfl
    · intro nodes hlinked
      rw [hlinked.unique (hrep.threaded.linked ())]
      exact hrep.used_off_lists hrow hused ()
    · rintro other ⟨n, hmem⟩ hne
      obtain ⟨b, hb, rfl, _⟩ := howns.block_of_mem hmem
      have hsame := hkept b hb hne
      have hge := b.size_ge
      rw [h.chunk_eq (Layout.mem_usedBlocks.mp hb).1]
      have hhead : b.payload - 4 = b.addr := Nat.add_sub_cancel b.addr 4
      rw [hhead]
      exact ⟨load_congr (hsame.mono (Nat.le_refl _) (by omega)),
        load_congr (hsame.mono (by omega) (by omega))⟩
  · subst hq
    have hsame := (myRealloc_null hsound hinv hptr hpos heq).2
    intro x _ _
    rw [hsame]

/-- `my_realloc` of a live block is honest about every size that fits into a tag
and reaches the arena safely, and about every size it refuses; and about no
others. -/
theorem resize_arithmetic (hsound : mmap.Sound)
    (hreach : Runs.Reach (Client.step (api mmap))
      (fun w call => w.Allows call ∧ Safe mmap w.heap call) (Client.initial Unit) w)
    (hptr : w.Holds ptr) (hpos : 1 ≤ size) :
    ((size + 24 ≤ 2 ^ 32 ∧
          PassesSafely theList mmap w.heap (request w.heap (.realloc ptr size))) ∨
        ResizeRefused w.heap ptr size → ResizeHonest mmap w ptr size) ∧
      (ResizeHonest mmap w ptr size → size + 24 ≤ 2 ^ 32 ∨ ResizeRefused w.heap ptr size) := by
  have hinv : Inv theList w := (contract hsound).invariant (fun _ _ hadmits => hadmits) hreach
  have hne : size ≠ 0 := by omega
  constructor
  · rintro (⟨hsmall, hsafe⟩ | hrefused)
    · exact resizeHonest_small hsound hinv hptr hne hsmall hsafe
    · obtain ⟨s', heq⟩ := myRealloc_refused hsound hinv hptr hne hrefused
      refine ⟨s', 0, heq, fun hq => absurd rfl hq, fun _ => ?_⟩
      have hsame := (myRealloc_null hsound hinv hptr hne heq).2
      intro x _ _
      rw [hsame]
  · rintro ⟨s', q, heq, hroom, _⟩
    by_cases hq : q = 0
    · subst hq
      exact Or.inr (myRealloc_null hsound hinv hptr hne heq).1
    · have hbound := tagSize_load_lt s'.mem (ptrSub q 4)
      have hclaimed := (hroom hq).2.1
      exact Or.inl (by omega)

end Honest

/-- A block is shrunk and then moved, with the sizes in range. -/
theorem resize_arithmetic_example : ∃ w,
    Runs.run (Client.step (api lowRegion)) (Client.initial Unit)
        [.malloc 100, .malloc 8, .realloc 4112 40] = some w ∧
      w.Holds 4112 ∧ ResizeHonest lowRegion w 4112 5000 := by
  have hfacts : (Runs.run (Client.step (api lowRegion)) (Client.initial Unit)
      [.malloc 100, .malloc 8, .realloc 4112 40]).map
      (fun w => (decide (w.Holds 4112), decide (PassesSafely theList lowRegion w.heap
        (request w.heap (.realloc 4112 5000))))) = some (true, true) := by decide +kernel
  obtain ⟨w, hrun, hw⟩ := Option.map_eq_some_iff.mp hfacts
  obtain ⟨hholds, hsafe⟩ := Prod.mk.inj hw
  have hreach : Runs.Reach (Client.step (api lowRegion)) (Admits lowRegion)
      (Client.initial Unit) w := .of_run .start (by decide +kernel) hrun
  refine ⟨w, hrun, of_decide_eq_true hholds, ?_⟩
  exact (resize_arithmetic lowRegion_sound (hreach.mono fun _ _ hadmits => hadmits.safe)
    (of_decide_eq_true hholds) (by decide)).1
      (Or.inl ⟨by decide, of_decide_eq_true hsafe⟩)

/-- A resize to 4 GiB shrinks the block to 16 bytes. -/
theorem resize_arithmetic_fails : lowRegion.Sound ∧ ∃ w,
    Runs.run (Client.step (api lowRegion)) (Client.initial Unit) [.malloc 100] = some w ∧
      Runs.Reach (Client.step (api lowRegion)) Client.Allows (Client.initial Unit) w ∧
      w.Holds 4112 ∧ ¬ ResizeHonest lowRegion w 4112 (2 ^ 32) := by
  have hfacts : (Runs.run (Client.step (api lowRegion)) (Client.initial Unit)
      [.malloc 100]).map (fun w => (decide (w.Holds 4112),
        (myRealloc lowRegion w.heap 4112 (2 ^ 32)).map
          (fun r => (r.2, tagSize (load r.1.mem (ptrSub r.2 4) 4))))) =
        some (true, some (4112, 16)) := by decide +kernel
  obtain ⟨w, hrun, hw⟩ := Option.map_eq_some_iff.mp hfacts
  obtain ⟨hholds, hchunk⟩ := Prod.mk.inj hw
  refine ⟨lowRegion_sound, w, hrun, .of_run .start (by decide +kernel) hrun,
    of_decide_eq_true hholds, ?_⟩
  rintro ⟨s', q, heq, hroom, _⟩
  obtain ⟨hq, hnone⟩ := no_room (2 ^ 32) hchunk (by decide) heq
  exact hnone (hroom hq).2.1

end FirstFit

end AllocSitter
