/-
Immediate coalescing in `allocator.c`.  `my_free` looks at the header of the
right neighbour but at the footer of the left one, and it leaves the footer of
the block it frees as it was unless a merge writes it.  So a free block can carry
a used footer, and only then does a merge not happen.
-/
import AllocSitter.Isolation

namespace AllocSitter

namespace FirstFit

open ByteMemory LinkedChain Tiling

/-- No two neighbours in the row are both free. -/
def Merged (blocks : List Block) : Prop :=
  blocks.IsChain fun a b => a.used = true ∨ b.used = true

section Row

variable {pre mid post : List Block} {c : Block}

theorem merged_middle (hne : mid ≠ []) :
    Merged (pre ++ mid ++ post) ↔ Merged pre ∧ Merged mid ∧ Merged post ∧
      (∀ a ∈ pre.getLast?, ∀ b ∈ mid.head?, a.used = true ∨ b.used = true) ∧
      ∀ a ∈ mid.getLast?, ∀ b ∈ post.head?, a.used = true ∨ b.used = true := by
  have hlast : (pre ++ mid).getLast? = mid.getLast? :=
    List.getLast?_append_of_ne_nil pre hne
  unfold Merged
  rw [List.isChain_append, List.isChain_append, hlast]
  tauto

/-- A single block between its neighbours. -/
theorem merged_cons :
    Merged (pre ++ [c] ++ post) ↔ Merged pre ∧ Merged post ∧
      (c.used = false → (∀ a ∈ pre.getLast?, a.used = true) ∧
        ∀ b ∈ post.head?, b.used = true) := by
  have hone : Merged [c] := List.isChain_singleton c
  rw [merged_middle (by simp)]
  constructor
  · rintro ⟨hpre, _, hpost, hleft, hright⟩
    refine ⟨hpre, hpost, fun hfree => ⟨fun a ha => ?_, fun b hb => ?_⟩⟩
    · exact (hleft a ha c rfl).resolve_right (by simp [hfree])
    · exact (hright c rfl b hb).resolve_left (by simp [hfree])
  · rintro ⟨hpre, hpost, hfree⟩
    refine ⟨hpre, hone, hpost, ?_, ?_⟩
    · intro a ha b hb
      obtain rfl : c = b := Option.some.inj hb
      cases hc : c.used with
      | true => exact Or.inr rfl
      | false => exact Or.inl ((hfree hc).1 a ha)
    · intro a ha b hb
      obtain rfl : c = a := Option.some.inj ha
      cases hc : c.used with
      | true => exact Or.inl rfl
      | false => exact Or.inr ((hfree hc).2 b hb)

end Row

/-- `my_malloc` makes no free neighbours. -/
theorem merged_malloc {account : Nat → AllocStat → AllocStat} {mmap : Mmap} {s s' : State}
    {L L' : Layout Unit} {need p : Nat}
    (hcase : MallocCase theList account mmap s L need s' p L')
    (hfree : ∀ b ∈ L.lists (), b.used = false) (hmerged : Merged L.blocks) :
    Merged L'.blocks := by
  cases hcase with
  | @split pre post front back c hge hmod hfit hblocks hlist =>
      have hc := hfree c (by rw [show L.lists () = _ from hlist]; simp)
      rw [hblocks, ← List.singleton_append, ← List.append_assoc, merged_cons] at hmerged
      obtain ⟨hpre, hpost, hsides⟩ := hmerged
      refine (merged_middle (by simp)).mpr ⟨hpre, ?_, hpost, ?_, ?_⟩
      · exact List.isChain_cons_cons.mpr ⟨Or.inl rfl, List.isChain_singleton _⟩
      · intro a ha b _
        exact Or.inl ((hsides hc).1 a ha)
      · intro a _ b hb
        exact Or.inr ((hsides hc).2 b hb)
  | @whole pre post front back c hsize hblocks hlist =>
      rw [hblocks, ← List.singleton_append, ← List.append_assoc, merged_cons] at hmerged
      refine merged_cons.mpr ⟨hmerged.1, hmerged.2.1, fun hfalse => ?_⟩
      simp [Block.taken, Block.fresh] at hfalse
  | @extend top hge hmod =>
      have hrow : Merged (L.blocks ++ [Block.fresh (top + padding L) need true hge hmod] ++
          []) := by
        refine merged_cons.mpr ⟨hmerged, List.isChain_nil, fun hfalse => ?_⟩
        simp [Block.fresh] at hfalse
      rwa [List.append_nil] at hrow
  | fail => exact hmerged

section Free

variable {pre post pre' post' list list₁ list₂ : List Block} {c c₁ c₂ : Block}

/-- What the first merge leaves to the right is used. -/
theorem merged_right (hright : RightCase c.release post list c₁ post' list₁)
    (hpost : Merged post) :
    Merged post' ∧ c₁.used = false ∧ ∀ b ∈ post'.head?, b.used = true := by
  cases hright with
  | alone hused =>
      refine ⟨hpost, rfl, fun b hb => ?_⟩
      obtain ⟨rest, hrest⟩ := List.head?_eq_some_iff.mp hb
      exact hused b rest hrest
  | @joined d rest hpost' hfree =>
      subst hpost'
      have hsplit := List.isChain_cons.mp hpost
      refine ⟨hsplit.2, rfl, fun b hb => ?_⟩
      exact (hsplit.1 b hb).resolve_left (by simp [hfree])

/-- `my_free` makes no free neighbours unless the left one is free behind a used
footer. -/
theorem merged_free (hright : RightCase c.release post list c₁ post' list₁)
    (hleft : LeftCase pre c₁ list₁ pre' c₂ list₂) (hmerged : Merged (pre ++ [c] ++ post)) :
    Merged (pre' ++ [c₂] ++ post') ↔
      ¬ ∃ front e, pre = front ++ [e] ∧ e.used = false ∧ e.foot = true := by
  obtain ⟨hpre, hpost, _⟩ := merged_cons.mp hmerged
  obtain ⟨hpost', hfree₁, hhead⟩ := merged_right hright hpost
  cases hleft with
  | alone hfoot =>
      constructor
      · rintro hrow ⟨front, e, rfl, hfree, _⟩
        have hused := ((merged_cons.mp hrow).2.2 hfree₁).1 e (by simp)
        rw [hfree] at hused
        exact absurd hused (by decide)
      · intro hnone
        refine merged_cons.mpr ⟨hpre, hpost', fun _ => ⟨fun e he => ?_, hhead⟩⟩
        obtain ⟨front, hfront⟩ := List.getLast?_eq_some_iff.mp he
        by_contra hused
        exact hnone ⟨front, e, hfront, by simpa using hused, hfoot front e hfront⟩
  | @joined _ e hpre' hfoot =>
      subst hpre'
      have hefree := Block.free_of_foot hfoot
      constructor
      · rintro _ ⟨front', e', heq, _, hfoot'⟩
        obtain ⟨_, hlast⟩ := List.append_inj' heq rfl
        rw [(List.cons.inj hlast).1, hfoot'] at hfoot
        exact absurd hfoot (by decide)
      · intro _
        have hrow : Merged (pre' ++ [e] ++ []) := by rwa [List.append_nil]
        obtain ⟨hfront, _, hsides⟩ := merged_cons.mp hrow
        exact merged_cons.mpr ⟨hfront, hpost', fun _ => ⟨(hsides hefree).1, hhead⟩⟩

end Free

/-- The left neighbour of the block at `ptr` is free by its header, but its footer,
which `my_free` goes by, still says used. -/
def StaleLeft (s : State) (ptr : Nat) : Prop :=
  let header := ptrSub ptr 4
  let leftFooter := ptrSub header 4
  let leftHeader := ptrSub header (tagSize (load s.mem leftFooter 4))
  leftFooter > s.heapLo ∧ load s.mem leftFooter 4 % 2 = 1 ∧ load s.mem leftHeader 4 % 2 = 0

/-- No two neighbours among the blocks from `heap_lo` to `heap_hi` are both free. -/
def FreeApart (s : State) : Prop :=
  ∃ headers, Headers s headers ∧ headers.IsChain fun a b =>
    load s.mem a 4 % 2 = 1 ∨ load s.mem b 4 % 2 = 1

section Concrete

variable {s : State} {L : Layout Unit} {pre post : List Block} {c : Block}

theorem staleLeft_iff (h : Represents theList s L) (hblocks : L.blocks = pre ++ c :: post)
    (hused : c.used = true) :
    StaleLeft s c.payload ↔
      ∃ front e, pre = front ++ [e] ∧ e.used = false ∧ e.foot = true := by
  have hc : c ∈ L.blocks := by simp [hblocks]
  have hheader := h.header_eq hc
  obtain ⟨hlow, hhigh, _, hcur, hpage⟩ := h.room.bounds hc
  have hfooter : ptrSub c.addr 4 = c.addr - 4 := ptrSub_of_le (by omega) (by omega)
  obtain ⟨hpre, _⟩ :=
    (h.held hblocks hused).pieces (List.mem_singleton_self c) ⟨rfl, rfl⟩
  simp only [StaleLeft, hheader, hfooter]
  rcases List.eq_nil_or_concat' pre with rfl | ⟨front, e, rfl⟩
  · have hstart : s.heapLo = c.addr := hpre
    constructor
    · rintro ⟨hlt, _⟩
      omega
    · rintro ⟨front, e, heq, _⟩
      simp at heq
  · obtain ⟨cut, hfront, haddr, hend⟩ := tiles_append.mp hpre
    have hend' : e.addr + e.size = c.addr := by
      rw [haddr]
      exact hend
    have hge := e.size_ge
    have hle := hfront.le
    have htagged := h.threaded.tagged e (by simp [hblocks])
    have hplace : c.addr - 4 = e.addr + e.size - 4 := by omega
    have hleft : ptrSub c.addr e.size = e.addr := by
      rw [ptrSub_of_le (by omega) (by omega)]
      omega
    rw [hplace, htagged.tagSize_tail, htagged.flag_tail, hleft, htagged.flag_head]
    constructor
    · rintro ⟨_, hfoot, hhead⟩
      refine ⟨front, e, rfl, ?_, ?_⟩
      · cases hb : e.used with
        | false => rfl
        | true => simp [hb] at hhead
      · cases hb : e.foot with
        | true => rfl
        | false => simp [hb] at hfoot
    · rintro ⟨front', e', heq, hfree, hfoot⟩
      obtain ⟨_, hlast⟩ := List.append_inj' heq rfl
      rw [(List.cons.inj hlast).1, hfree, hfoot]
      rw [(List.cons.inj hlast).1] at hge haddr
      exact ⟨by omega, rfl, rfl⟩

theorem freeApart_iff (h : Represents theList s L) : FreeApart s ↔ Merged L.blocks := by
  have hflag : ∀ b ∈ L.blocks, (load s.mem b.addr 4 % 2 = 1 ↔ b.used = true) := by
    intro b hb
    rw [(h.threaded.tagged b hb).flag_head]
    cases b.used <;> simp
  have hrow : (L.blocks.map Block.addr).IsChain
      (fun a b => load s.mem a 4 % 2 = 1 ∨ load s.mem b 4 % 2 = 1) ↔ Merged L.blocks := by
    rw [List.isChain_map]
    constructor
    · intro hchain
      exact hchain.imp_of_mem_imp fun a b ha hb hab =>
        hab.imp (hflag a ha).mp (hflag b hb).mp
    · intro hchain
      exact hchain.imp_of_mem_imp fun a b ha hb hab =>
        hab.imp (hflag a ha).mpr (hflag b hb).mpr
  constructor
  · rintro ⟨headers, hheaders, hchain⟩
    rw [hheaders.unique h.headers] at hchain
    exact hrow.mp hchain
  · intro hmerged
    exact ⟨_, h.headers, hrow.mpr hmerged⟩

/-- With every block free and no two of them neighbours, there is one block. -/
theorem single_of_merged (hmerged : Merged L.blocks) (hne : L.blocks ≠ [])
    (hfree : Layout.usedBlocks L.blocks = []) : ∃ b, L.blocks = [b] ∧ b.used = false := by
  have hall : ∀ b ∈ L.blocks, b.used = false := by
    intro b hb
    by_contra hused
    have hmem := Layout.mem_usedBlocks.mpr ⟨hb, by simpa using hused⟩
    rw [hfree] at hmem
    simp at hmem
  cases hrow : L.blocks with
  | nil => exact absurd hrow hne
  | cons b rest =>
      rw [hrow] at hall hmerged
      have hb := hall b List.mem_cons_self
      cases rest with
      | nil => exact ⟨b, rfl, hb⟩
      | cons d rest =>
          have hd := hall d (by simp)
          rcases (List.isChain_cons_cons.mp hmerged).1 with hused | hused
          · rw [hb] at hused
            exact absurd hused (by decide)
          · rw [hd] at hused
            exact absurd hused (by decide)

end Concrete

section Runs

variable {mmap : Mmap} {w w' : Client Unit}

/-- The calls of the coalescing runs: no resizes, and no block is freed next to a
free block with a used footer. -/
def Coalesces (mmap : Mmap) (w : Client Unit) (call : Call) : Prop :=
  Admits mmap w call ∧ (∀ ptr size, call ≠ .realloc ptr size) ∧
    ∀ ptr, call = .free ptr → ptr ≠ 0 → ¬ StaleLeft w.heap ptr

instance (s : State) (ptr : Nat) : Decidable (StaleLeft s ptr) :=
  inferInstanceAs (Decidable (_ ∧ _ ∧ _))

instance (mmap : Mmap) (w : Client Unit) : ∀ call, Decidable (Coalesces mmap w call)
  | .free ptr => decidable_of_iff
      (Admits mmap w (.free ptr) ∧ (ptr ≠ 0 → ¬ StaleLeft w.heap ptr))
      ⟨fun h => ⟨h.1, by simp, fun _ hcall => Call.free.inj hcall ▸ h.2⟩,
        fun h => ⟨h.1, h.2.2 ptr rfl⟩⟩
  | .realloc ptr size => .isFalse fun h => h.2.1 ptr size rfl
  | .malloc size => decidable_of_iff (Admits mmap w (.malloc size))
      ⟨fun h => ⟨h, by simp, by simp⟩, fun h => h.1⟩
  | .calloc nmemb size => decidable_of_iff (Admits mmap w (.calloc nmemb size))
      ⟨fun h => ⟨h, by simp, by simp⟩, fun h => h.1⟩
  | .write addr byte => decidable_of_iff (Admits mmap w (.write addr byte))
      ⟨fun h => ⟨h, by simp, by simp⟩, fun h => h.1⟩
  | .statReset => decidable_of_iff (Admits mmap w .statReset)
      ⟨fun h => ⟨h, by simp, by simp⟩, fun h => h.1⟩

/-- A free of a live block keeps the free blocks apart exactly when it does not
meet a stale footer. -/
theorem freeApart_free (hinv : Inv theList w) (hapart : FreeApart w.heap) {ptr : Nat}
    (hptr : w.Holds ptr) :
    ∃ s', myFree w.heap ptr = some s' ∧ (FreeApart s' ↔ ¬ StaleLeft w.heap ptr) := by
  obtain ⟨L, h, howns⟩ := hinv
  obtain ⟨n, hmem⟩ := hptr
  obtain ⟨c, hc, rfl, _⟩ := howns.block_of_mem hmem
  obtain ⟨hrow, hused⟩ := Layout.mem_usedBlocks.mp hc
  obtain ⟨pre, post, hblocks⟩ := List.append_of_mem hrow
  obtain ⟨s', c₁, post', list₁, pre', c₂, list₂, hfree, hright, hleft, hrep, _⟩ :=
    myFree_spec h hblocks hused
  refine ⟨s', hfree, ?_⟩
  have hmerged := (freeApart_iff h).mp hapart
  rw [hblocks, ← List.singleton_append, ← List.append_assoc] at hmerged
  rw [freeApart_iff hrep, staleLeft_iff h hblocks hused]
  exact merged_free hright hleft hmerged

/-- One step of a coalescing run. -/
theorem freeApart_step (hsound : mmap.Sound) (hinv : Inv theList w)
    (hapart : FreeApart w.heap) {call : Call} (hcall : Coalesces mmap w call)
    (hstep : w.step (api mmap) call = some w') : FreeApart w'.heap := by
  obtain ⟨hadmits, hno, hstale⟩ := hcall
  obtain ⟨hallows, hsafe⟩ := hadmits.safe
  obtain ⟨L, h, howns⟩ := id hinv
  have hmerged := (freeApart_iff h).mp hapart
  have hafter := Client.step_heap hstep
  cases call with
  | malloc size =>
      obtain ⟨hsize, hsafe'⟩ := hsafe.1 size rfl
      obtain ⟨s', p, L', heq, hcase, hrep, _⟩ := myMalloc_spec hsound h hsize hsafe'
      simp only [Client.heapAfter, api, heq, Option.map_some, Option.some.injEq] at hafter
      rw [← hafter, freeApart_iff hrep]
      exact merged_malloc hcase (h.lists_free ()) hmerged
  | calloc nmemb size =>
      cases hrequest : callocRequest nmemb size with
      | none =>
          have hnone : myCalloc mmap w.heap nmemb size = some (w.heap, 0) :=
            callocWith_none hrequest
          simp only [Client.heapAfter, api, hnone, Option.map_some, Option.some.injEq] at hafter
          rwa [← hafter]
      | some n =>
          obtain ⟨hsize, hsafe'⟩ := hsafe.1 n hrequest
          obtain ⟨s₁, p, L', m, heq, hcase, hrep⟩ :=
            myCalloc_spec hsound h hrequest hsize hsafe'
          simp only [Client.heapAfter, api, heq, Option.map_some, Option.some.injEq] at hafter
          rw [← hafter, freeApart_iff hrep]
          exact merged_malloc hcase (h.lists_free ()) hmerged
  | free ptr =>
      simp only [Client.heapAfter, api] at hafter
      rcases hallows with rfl | hholds
      · have hnull : myFree w.heap 0 = some w.heap := by simp [myFree]
        rw [hnull, Option.some.injEq] at hafter
        rwa [← hafter]
      · obtain ⟨s', hfree, hiff⟩ := freeApart_free hinv hapart hholds
        rw [hfree, Option.some.injEq] at hafter
        rw [← hafter]
        have hptr : ptr ≠ 0 := fun hzero => hinv.null_not_held (hzero ▸ hholds)
        exact hiff.mpr (hstale ptr rfl hptr)
  | realloc ptr size => exact absurd rfl (hno ptr size)
  | write addr byte =>
      simp only [Client.heapAfter, Option.some.injEq] at hafter
      rw [← hafter, freeApart_iff (h.client_write howns hallows)]
      exact hmerged
  | statReset =>
      simp only [Client.heapAfter, Option.some.injEq] at hafter
      rw [← hafter, freeApart_iff ((contract hsound).statReset h).1]
      exact hmerged

/-- The free blocks stay apart in every state of a coalescing run. -/
theorem freeApart_run (hsound : mmap.Sound)
    (hreach : Runs.Reach (Client.step (api mmap)) (Coalesces mmap) (Client.initial Unit) w) :
    Inv theList w ∧ FreeApart w.heap := by
  have hrun : ∀ {v : Client Unit}, Runs.Reach (Client.step (api mmap)) (Coalesces mmap)
      (Client.initial Unit) v → Inv theList v := fun hreach =>
    (contract hsound).invariant (fun _ _ hcall => hcall.1.safe) hreach
  refine ⟨hrun hreach, ?_⟩
  induction hreach with
  | start => exact (freeApart_iff (represents_initial theList)).mpr List.isChain_nil
  | next hbefore hcall hstep ih =>
      exact freeApart_step hsound (hrun hbefore) ih hcall hstep

/-- In every state of a coalescing run no two neighbours are both free; with
nothing live the heap is a single free block; and from such a state a free keeps
it so exactly when the left neighbour's footer is not stale. -/
theorem immediate_coalescing (hsound : mmap.Sound)
    (hreach : Runs.Reach (Client.step (api mmap)) (Coalesces mmap) (Client.initial Unit) w) :
    FreeApart w.heap ∧
      (w.live = [] → w.heap.heapLo ≠ 0 →
        ∃ header, Headers w.heap [header] ∧ load w.heap.mem header 4 % 2 = 0) ∧
      ∀ ptr, w.Holds ptr → ∃ w', w.step (api mmap) (.free ptr) = some w' ∧
        (FreeApart w'.heap ↔ ¬ StaleLeft w.heap ptr) := by
  obtain ⟨hinv, hapart⟩ := freeApart_run hsound hreach
  refine ⟨hapart, ?_, ?_⟩
  · intro hlive hset
    obtain ⟨L, h, howns⟩ := hinv
    have hne : L.blocks ≠ [] := fun hnil => hset (h.arena.untouched hnil).1
    have hnone : Layout.usedBlocks L.blocks = [] := by
      have hperm := howns.pointers
      rw [hlive, List.map_nil] at hperm
      exact List.map_eq_nil_iff.mp hperm.symm.eq_nil
    obtain ⟨b, hrow, hfree⟩ := single_of_merged ((freeApart_iff h).mp hapart) hne hnone
    have hheaders := h.headers
    rw [hrow] at hheaders
    exact ⟨b.addr, hheaders, (h.threaded.tagged b (by simp [hrow])).clear_iff.mpr hfree⟩
  · intro ptr hptr
    obtain ⟨s', hfree, hiff⟩ := freeApart_free hinv hapart hptr
    refine ⟨⟨s', Client.drop w.live ptr⟩, ?_, hiff⟩
    simp [Client.step, Client.exec, api, hfree]

theorem immediate_coalescing_example : ∃ w : Client Unit,
    Runs.run (Client.step (api lowRegion)) (Client.initial Unit)
        [.malloc 8, .malloc 8, .free 4128, .free 4112] = some w ∧
      FreeApart w.heap ∧
      ∃ header, Headers w.heap [header] ∧ load w.heap.mem header 4 % 2 = 0 := by
  have hfacts : (Runs.run (Client.step (api lowRegion)) (Client.initial Unit)
      [.malloc 8, .malloc 8, .free 4128, .free 4112]).map
      (fun w => (w.live, w.heap.heapLo)) = some ([], 4108) := by decide +kernel
  obtain ⟨w, hrun, hw⟩ := Option.map_eq_some_iff.mp hfacts
  simp only [Prod.mk.injEq] at hw
  have hreach : Runs.Reach (Client.step (api lowRegion)) (Coalesces lowRegion)
      (Client.initial Unit) w := .of_run .start (by decide +kernel) hrun
  obtain ⟨hapart, hsingle, _⟩ := immediate_coalescing lowRegion_sound hreach
  exact ⟨w, hrun, hapart, hsingle hw.1 (by rw [hw.2]; decide)⟩

/-- Two neighbours freed from left to right stay two free blocks: the footer of the
first still says used. -/
theorem immediate_coalescing_fails : lowRegion.Sound ∧ ∃ w : Client Unit,
    Runs.run (Client.step (api lowRegion)) (Client.initial Unit)
        [.malloc 8, .malloc 8, .free 4112, .free 4128] = some w ∧
      Runs.Reach (Client.step (api lowRegion)) (Client.Disciplined (2 ^ 63) (2 ^ 32 - 24))
        (Client.initial Unit) w ∧
      w.live = [] ∧ ¬ FreeApart w.heap := by
  have hfacts : (Runs.run (Client.step (api lowRegion)) (Client.initial Unit)
      [.malloc 8, .malloc 8, .free 4112, .free 4128]).map
      (fun w => (w.live, w.heap.heapLo, w.heap.heapHi, load w.heap.mem 4108 4,
        load w.heap.mem 4124 4)) = some ([], 4108, 4140, 16, 16) := by decide +kernel
  obtain ⟨w, hrun, hw⟩ := Option.map_eq_some_iff.mp hfacts
  simp only [Prod.mk.injEq] at hw
  obtain ⟨hlive, hlo, hhi, hfirst, hsecond⟩ := hw
  refine ⟨lowRegion_sound, w, hrun, .of_run .start (by decide +kernel) hrun, hlive, ?_⟩
  have hsize₁ : blockSize w.heap.mem 4108 = 16 := by rw [blockSize, hfirst]; rfl
  have hsize₂ : blockSize w.heap.mem 4124 = 16 := by rw [blockSize, hsecond]; rfl
  have hheaders : Headers w.heap [4108, 4124] := by
    unfold Headers
    rw [hlo, hhi, if_neg (by decide)]
    refine ⟨⟨rfl, ?_⟩, ?_⟩
    · rw [hsize₁]
      refine ⟨rfl, ?_⟩
      rw [hsize₂]
      rfl
    · simp [hsize₁, hsize₂]
  rintro ⟨headers, hother, hchain⟩
  rw [hother.unique hheaders, List.isChain_cons_cons, hfirst, hsecond] at hchain
  exact absurd hchain.1 (by decide)

end Runs

end FirstFit

end AllocSitter
