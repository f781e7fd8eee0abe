/-
The bins of `segregated_allocator.c` whose blocks all have one size.  A request for that
size takes the first block of the bin as it is, and only an empty bin sends it to the
arena.
-/
import AllocSitter.FailedCalls
import AllocSitter.Placement
import AllocSitter.PooledRuns

namespace AllocSitter

open ByteMemory LinkedChain Tiling

variable {ι : Type} [DecidableEq ι]

section Head

variable {shape : Globals ι → List Block → Prop} [LawfulShape shape] {binOf : Nat → ι}
  {account : Nat → AllocStat → AllocStat} {s : Globals ι} {L : Layout ι}
  {pre post back : List Block} {c : Block}

/-- A request of exactly the size of the first block of its list takes that block: nothing
but its tags is written, and one step has been made. -/
theorem mallocWith_head
    (haccount : ∀ n stat, (account n stat).freelistLen = stat.freelistLen)
    (h : RepresentsIn shape binOf s L) (mmap : Mmap) {size : Nat}
    (hneed : chunkNeed size = c.size)
    (hblocks : L.blocks = pre ++ c :: post) (hlist : L.lists (binOf c.size) = c :: back) :
    ∃ s', mallocWith binOf account mmap s size = some (s', c.payload) ∧
      RepresentsIn shape binOf s'
        ⟨pre ++ [c.taken c.size c.size_ge c.size_mod] ++ post,
          Function.update L.lists (binOf c.size) back⟩ ∧
      s'.mem = setTags s.mem c.addr (c.size + 1) ∧ SameArena s s' ∧
      s'.stat =
        { account c.size (addRealBytes (addScanSteps s 1).stat c.size) with
          freelistLen := Layout.freeCount L.blocks - 1 } := by
  have hc : c ∈ L.lists (binOf c.size) := by simp [hlist]
  have hrow : c ∈ L.blocks := by simp [hblocks]
  obtain ⟨hlow, hhigh, hsize, hcur, _⟩ := h.room.bounds hrow
  have hge := c.size_ge
  have hlt : c.size + 16 < 2 ^ 64 := by omega
  have hfirst : L.lists (binOf c.size) = [] ++ c :: back := hlist
  have hwalk := h.walk_first hfirst (fun b hb => absurd hb (by simp))
    (show fits s.mem c.size c.addr = true by rw [h.fits_iff hlt hc]; simp)
  have h₁ := h.addScanSteps 1
  have hhead := h₁.head_eq hfirst
  have htag : tagSize (load (addScanSteps s 1).mem c.addr 4) = c.size :=
    (h.threaded.tagged c hrow).tagSize_head
  obtain ⟨s', heq, hrep, _, hstat, hsame⟩ :=
    wholeBlock_spec haccount h₁ hblocks hfirst
  refine ⟨s', ?_, hrep, ?_, (SameArena.of_mem_stat s _ _).trans hsame, hstat⟩
  · have hsplit : ¬ ptrAdd c.size 16 ≤ c.size := by
      rw [ptrAdd_of_lt hlt]
      omega
    rw [List.length_nil, Nat.zero_add] at hwalk
    simp only [mallocWith, hneed, hwalk, hhead, htag, if_neg hsplit, heq]
    rfl
  · -- The link is the head of the list, so its new value goes to no memory.
    have hs' := congrArg (fun result => result.1.mem) heq
    have hor : c.size ||| 1 = c.size + 1 := or_one_of_even (by have := c.size_mod; omega)
    simp only [wholeBlock, hor] at hs'
    exact hs'.symm

end Head

section Arena

variable {mmap : Mmap} {s : Globals ι} {need : Nat}

omit [DecidableEq ι] in
theorem arenaExtend_lists (mmap : Mmap) (s : Globals ι) (n : Nat) :
    (arenaExtend mmap s n).1.freeHead = s.freeHead ∧ (arenaExtend mmap s n).1.stat = s.stat := by
  have hmove : ∀ t : Globals ι, (moveBreak t n).1.freeHead = t.freeHead ∧
      (moveBreak t n).1.stat = t.stat := by
    intro t
    unfold moveBreak
    split
    · exact ⟨rfl, rfl⟩
    · split <;> exact ⟨rfl, rfl⟩
  unfold arenaExtend
  split
  · cases mmap s.mmapCalls with
    | none => exact ⟨rfl, rfl⟩
    | some base => exact hmove (installArena s base)
  · exact hmove s

omit [DecidableEq ι] in
/-- The arena has no part in the lists, nor in the count of steps. -/
theorem extendHeap_lists {account : Nat → AllocStat → AllocStat}
    (hscan : ∀ n stat, (account n stat).scanSteps = stat.scanSteps) (mmap : Mmap)
    (s : Globals ι) (need : Nat) :
    (extendHeap account mmap s need).1.freeHead = s.freeHead ∧
      (extendHeap account mmap s need).1.stat.scanSteps = s.stat.scanSteps := by
  generalize hfirst : arenaExtend mmap s 0 = first
  obtain ⟨s₁, cur⟩ := first
  generalize hsecond : arenaExtend mmap s₁ (ptrAdd need (ptrSub 12 cur % 16)) = second
  obtain ⟨s₂, p⟩ := second
  generalize hthird : arenaExtend mmap s₂ 0 = third
  obtain ⟨s₃, hi⟩ := third
  have hlists₁ := arenaExtend_lists mmap s 0
  have hlists₂ := arenaExtend_lists mmap s₁ (ptrAdd need (ptrSub 12 cur % 16))
  have hlists₃ := arenaExtend_lists mmap s₂ 0
  rw [hfirst] at hlists₁
  rw [hsecond] at hlists₂
  rw [hthird] at hlists₃
  have hheads : s₃.freeHead = s.freeHead := hlists₃.1.trans (hlists₂.1.trans hlists₁.1)
  have hstat : s₃.stat = s.stat := hlists₃.2.trans (hlists₂.2.trans hlists₁.2)
  have hsteps : s₃.stat.scanSteps = s.stat.scanSteps := congrArg AllocStat.scanSteps hstat
  simp only [extendHeap, hfirst, hsecond, hthird]
  by_cases hp : p = mapFailed
  · rw [if_pos hp]
    exact ⟨hheads, hsteps⟩
  · rw [if_neg hp]
    by_cases hlo : s₃.heapLo = 0
    · rw [if_pos hlo]
      exact ⟨hheads, (hscan _ _).trans hsteps⟩
    · rw [if_neg hlo]
      exact ⟨hheads, (hscan _ _).trans hsteps⟩

end Arena

namespace Segregated

/-- The chunk sizes that have a bin of their own. -/
def soleSizes : List Nat := [16, 32, 80, 96, 112, 128]

theorem sole_bounds {need : Nat} (hneed : need ∈ soleSizes) :
    16 ≤ need ∧ need % 16 = 0 ∧ need ≤ 128 := by
  revert need
  decide

/-- The neighbouring multiples of 16 belong to other bins. -/
theorem sole_neighbours {need : Nat} (hneed : need ∈ soleSizes) :
    (need = 16 ∨ sizeToBin (need - 16) < sizeToBin need) ∧
      sizeToBin need < sizeToBin (need + 16) := by
  revert need
  decide

/-- The bounds of `size_to_bin` leave one multiple of 16 to such a bin. -/
theorem eq_of_sole {need size : Nat} (hneed : need ∈ soleSizes) (hmod : size % 16 = 0)
    (hge : 16 ≤ size) (hbin : sizeToBin size = sizeToBin need) : size = need := by
  obtain ⟨hge', hmod', _⟩ := sole_bounds hneed
  obtain ⟨hbelow, habove⟩ := sole_neighbours hneed
  rcases Nat.lt_trichotomy size need with hlt | heq | hgt
  · rcases hbelow with rfl | hbelow
    · omega
    · have hmono := sizeToBin_mono (show size ≤ need - 16 by omega)
      rw [hbin] at hmono
      exact absurd hbelow (not_lt.mpr hmono)
  · exact heq
  · have hmono := sizeToBin_mono (show need + 16 ≤ size by omega)
    rw [hbin] at hmono
    exact absurd habove (not_lt.mpr hmono)

/-- What `my_malloc(size)` does to a heap with the blocks `headers` and the bins `nodes`
when its bin has room for one size only. -/
structure FitsExactly (mmap : Mmap) (s : State) (size : Nat) (headers : List Nat)
    (nodes : Bin → List Nat) (s' : State) (p : Nat) : Prop where
  scan : ∃ steps ≤ 1, s'.stat.scanSteps = ptrAdd s.stat.scanSteps steps
  /-- No block is cut. -/
  uncut : ∀ h ∈ headers, blockSize s'.mem h = blockSize s.mem h
  others : ∀ i, i ≠ sizeToBin (chunkNeed size) →
    Linked (nextFree s'.mem) 0 (s'.freeHead i) (nodes i)
  /-- The scan goes on to the arena exactly when the bin is empty. -/
  arena : ScanMisses sizeToBin s size ↔ nodes (sizeToBin (chunkNeed size)) = []
  reused : ∀ h rest, nodes (sizeToBin (chunkNeed size)) = h :: rest →
    p = h + 4 ∧ blockSize s.mem h = chunkNeed size ∧ SameArena s s' ∧
      Linked (nextFree s'.mem) 0 (s'.freeHead (sizeToBin (chunkNeed size))) rest
  extended : nodes (sizeToBin (chunkNeed size)) = [] →
    (s', p) = extendHeap liveAdd mmap (addScanSteps s 0) (chunkNeed size) ∧
      s'.freeHead (sizeToBin (chunkNeed size)) = 0 ∧
      ((p = 0 ∧ ArenaRefuses mmap s (chunkNeed size)) ∨
        ∃ header, p = header + 4 ∧ s.arenaCur ≤ header ∧
          blockSize s'.mem header = chunkNeed size)

variable {mmap : Mmap} {s : State} {L : Layout Bin} {size : Nat}

/-- The first block of the bin is handed out. -/
theorem fitsExactly_reused (mmap : Mmap) (h : Pooled sizeToBin s L)
    (hsole : chunkNeed size ∈ soleSizes)
    (hne : L.lists (sizeToBin (chunkNeed size)) ≠ []) :
    ∃ s' p, myMalloc mmap s size = some (s', p) ∧
      FitsExactly mmap s size (L.blocks.map Block.addr) L.chains s' p := by
  obtain ⟨c, back, hlist⟩ := List.exists_cons_of_ne_nil hne
  have hc : c ∈ L.lists (sizeToBin (chunkNeed size)) := by simp [hlist]
  obtain ⟨hrow, _, hbin⟩ := h.binned.mem_iff.mp hc
  have hexact : c.size = chunkNeed size := eq_of_sole hsole c.size_mod c.size_ge hbin
  obtain ⟨pre, post, hblocks⟩ := List.append_of_mem hrow
  rw [← hexact] at hlist
  obtain ⟨s', heq, hrep, _, hsame, hstat⟩ :=
    mallocWith_head liveAdd_freelistLen h mmap hexact.symm hblocks hlist
  have hchain : L.chains (sizeToBin (chunkNeed size)) = c.addr :: back.map Block.addr := by
    rw [← hexact, Layout.chains, hlist, List.map_cons]
  refine ⟨s', c.payload, heq, ⟨⟨1, Nat.le_refl 1, ?_⟩, ?_, ?_, ?_, ?_, ?_⟩⟩
  · rw [hstat]
    exact liveAdd_scanSteps _ _
  · intro a ha
    obtain ⟨b, hb, rfl⟩ := List.mem_map.mp ha
    rw [h.blockSize_eq hb]
    by_cases hbc : b = c
    · subst hbc
      exact hrep.blockSize_eq (b := b.taken b.size b.size_ge b.size_mod) (by simp)
    · rw [hblocks] at hb
      exact hrep.blockSize_eq (mem_row_of_mem (mem_row_of_ne hb hbc))
  · intro i hi
    have hlinked := hrep.threaded.linked i
    rw [← hexact] at hi
    rwa [chains_update, Function.update_of_ne hi] at hlinked
  · rw [hchain]
    refine iff_of_false ?_ (by simp)
    rintro ⟨steps, hmisses⟩
    have hfirst : L.lists (sizeToBin (chunkNeed size)) = [] ++ c :: back := by
      rw [← hexact, hlist]
      rfl
    have hbound := (sole_bounds hsole).2.2
    have hfits : fits s.mem (chunkNeed size) c.addr = true := by
      rw [h.fits_iff (by omega) hc, hexact]
      simp
    rw [h.walk_first hfirst (fun b hb => absurd hb (by simp)) hfits] at hmisses
    simp at hmisses
  · intro a rest hnodes
    obtain ⟨rfl, rfl⟩ := List.cons.inj (hchain.symm.trans hnodes)
    refine ⟨rfl, (h.blockSize_eq hrow).trans hexact, hsame, ?_⟩
    have hlinked := hrep.threaded.linked (sizeToBin c.size)
    rwa [chains_update, Function.update_self, hbin] at hlinked
  · intro hempty
    rw [hchain] at hempty
    simp at hempty

/-- The bin is empty, and the arena is asked for the block. -/
theorem fitsExactly_extended (hsound : mmap.Sound) (h : Pooled sizeToBin s L)
    (hsole : chunkNeed size ∈ soleSizes)
    (hempty : L.lists (sizeToBin (chunkNeed size)) = []) :
    ∃ s' p, myMalloc mmap s size = some (s', p) ∧
      FitsExactly mmap s size (L.blocks.map Block.addr) L.chains s' p := by
  obtain ⟨hge, hmod, hsmall⟩ := sole_bounds hsole
  rcases mallocWith_cases liveAdd mmap h size with ⟨c, hc, _⟩ | ⟨_, hmisses, hmalloc⟩
  · rw [hempty] at hc
    simp at hc
  rw [hempty, List.length_nil] at hmalloc
  have h₀ := h.addScanSteps 0
  obtain ⟨hheads, hsteps⟩ :=
    extendHeap_lists liveAdd_scanSteps mmap (addScanSteps s 0) (chunkNeed size)
  generalize hresult : extendHeap liveAdd mmap (addScanSteps s 0) (chunkNeed size) = result at *
  obtain ⟨s', p⟩ := result
  -- Whether the request is granted or refused, no block loses a byte.
  have houtcome : (∀ b ∈ L.blocks, SameOn s.mem s'.mem b.addr b.size) ∧
      ((p = 0 ∧ ArenaRefuses mmap s (chunkNeed size)) ∨
        ∃ header, p = header + 4 ∧ s.arenaCur ≤ header ∧
          blockSize s'.mem header = chunkNeed size) := by
    rcases extendHeap_outcome liveAdd hsound h₀ (chunkNeed_le size) with
      ⟨hrefuses, hnull⟩ | ⟨_, s₁, header, m, heq, hgranted⟩
    · rw [hresult] at hnull
      obtain rfl : p = 0 := hnull
      refine ⟨fun b hb => ?_, Or.inl ⟨rfl, hrefuses⟩⟩
      have hbase := h.room.base_ne_zero (List.ne_nil_of_mem hb)
      rw [(extendHeap_null hsound h₀ hresult).1 hbase]
      exact SameOn.refl _ _ _
    · obtain ⟨rfl, rfl⟩ := Prod.mk.inj (hresult.symm.trans heq)
      obtain ⟨hsize, hkept⟩ := hgranted.small h₀ hge hmod (by omega)
      exact ⟨hkept, Or.inr ⟨header, rfl, hgranted.above, hsize⟩⟩
  obtain ⟨hkept, hresult'⟩ := houtcome
  refine ⟨s', p, hmalloc, ⟨⟨0, Nat.zero_le 1, hsteps⟩, ?_, ?_, ?_, ?_, ?_⟩⟩
  · intro a ha
    obtain ⟨b, hb, rfl⟩ := List.mem_map.mp ha
    rw [h.blockSize_eq hb]
    exact ((h.threaded.tagged b hb).congr (hkept b hb)).tagSize_head
  · exact fun i _ => h.lists_kept hheads hkept i
  · exact iff_of_true hmisses (by simp [Layout.chains, hempty])
  · intro a rest hnodes
    simp [Layout.chains, hempty] at hnodes
  · intro _
    refine ⟨hresult.symm, ?_, hresult'⟩
    exact (congrFun hheads _).trans (h.head_eq_zero.mpr hempty)

/-- The blocks of the heap of a client. -/
structure BlocksOf (mmap : Mmap) (w : Client Bin) (headers : List Nat) : Prop where
  /-- They are the live ones and those on the lists. -/
  mem_iff : ∀ h, h ∈ headers ↔ w.Holds (h + 4) ∨
    ∃ i nodes, Linked (nextFree w.heap.mem) 0 (w.heap.freeHead i) nodes ∧ h ∈ nodes
  /-- On a region that did not come late they fill the heap. -/
  walked : Runs.Reach (Client.step (api mmap)) (Admits mmap) (Client.initial Bin) w →
    Headers w.heap headers

theorem mem_row_iff {w : Client Bin} (h : Pooled sizeToBin w.heap L)
    (howns : Owns w.live (Layout.usedBlocks L.blocks)) (a : Nat) :
    a ∈ L.blocks.map Block.addr ↔ w.Holds (a + 4) ∨
      ∃ i nodes, Linked (nextFree w.heap.mem) 0 (w.heap.freeHead i) nodes ∧ a ∈ nodes := by
  constructor
  · intro ha
    obtain ⟨b, hb, rfl⟩ := List.mem_map.mp ha
    cases hused : b.used with
    | true => exact Or.inl (howns.mem_of_block (Layout.mem_usedBlocks.mpr ⟨hb, hused⟩))
    | false =>
        refine Or.inr ⟨sizeToBin b.size, L.chains _, h.threaded.linked _, ?_⟩
        exact List.mem_map_of_mem (h.binned.mem_iff.mpr ⟨hb, hused, rfl⟩)
  · rintro (⟨n, hmem⟩ | ⟨i, nodes, hlinked, ha⟩)
    · obtain ⟨b, hb, hptr, _⟩ := howns.block_of_mem hmem
      obtain rfl : a = b.addr := Nat.add_right_cancel hptr
      exact List.mem_map_of_mem (Layout.mem_usedBlocks.mp hb).1
    · rw [hlinked.unique (h.threaded.linked i)] at ha
      obtain ⟨b, hb, rfl⟩ := List.mem_map.mp ha
      exact List.mem_map_of_mem (h.binned.mem_iff.mp hb).1

/-- The row of blocks in a state that a run without a wrapped sum leads to. -/
theorem reach_blocks (hsound : mmap.Sound) {w : Client Bin}
    (hreach : Runs.Reach (Client.step (api mmap)) (AdmitsLate mmap) (Client.initial Bin) w) :
    ∃ L, Pooled sizeToBin w.heap L ∧ Owns w.live (Layout.usedBlocks L.blocks) ∧
      Accounts w.heap L ∧ BlocksOf mmap w (L.blocks.map Block.addr) := by
  by_cases hadmits : Runs.Reach (Client.step (api mmap)) (Admits mmap) (Client.initial Bin) w
  · obtain ⟨L, h, howns, hacc⟩ := reach_accounts hsound hadmits
    exact ⟨L, h.pooled, howns, hacc, mem_row_iff h.pooled howns, fun _ => h.headers⟩
  · obtain ⟨L, hbooked⟩ := reach_booked hsound hreach
    have howns := hbooked.owns.mono fun _ _ hfit => hfit.1
    exact ⟨L, hbooked.pooled, howns, hbooked.accounts, mem_row_iff hbooked.pooled howns,
      fun hadmits' => absurd hadmits' hadmits⟩

/-- In every state that a run without a wrapped sum leads to, for every size whose chunk has a
bin of its own: the first block of the bin, or the arena if there is none. -/
theorem exact_fit_bins (hsound : mmap.Sound) {w : Client Bin}
    (hreach : Runs.Reach (Client.step (api mmap)) (AdmitsLate mmap) (Client.initial Bin) w) :
    ∃ headers : List Nat, ∃ nodes : Bin → List Nat, BlocksOf mmap w headers ∧
      (∀ i, Linked (nextFree w.heap.mem) 0 (w.heap.freeHead i) (nodes i)) ∧
      ∀ size, chunkNeed size ∈ soleSizes →
        ∃ s' p, myMalloc mmap w.heap size = some (s', p) ∧
          FitsExactly mmap w.heap size headers nodes s' p := by
  obtain ⟨L, h, _, _, hblocks⟩ := reach_blocks hsound hreach
  refine ⟨_, L.chains, hblocks, h.threaded.linked, fun size hsole => ?_⟩
  by_cases hempty : L.lists (sizeToBin (chunkNeed size)) = []
  · exact fitsExactly_extended hsound h hsole hempty
  · exact fitsExactly_reused mmap h hsole hempty

/-- The region has come late, and the remainder of a block of 64 bytes is a block of 16 bytes,
which is taken as such. -/
theorem exact_fit_bins_example :
    ∃ w s' p, ∃ headers : List Nat, ∃ nodes : Bin → List Nat,
      Runs.run (Client.step (api lateRegion)) (Client.initial Bin)
        [.malloc 56, .free 4113, .malloc 40] = some w ∧
      BlocksOf lateRegion w headers ∧
      (∀ i, Linked (nextFree w.heap.mem) 0 (w.heap.freeHead i) (nodes i)) ∧
      chunkNeed 8 = 16 ∧ myMalloc lateRegion w.heap 8 = some (s', p) ∧ p = 4161 ∧
      FitsExactly lateRegion w.heap 8 headers nodes s' p := by
  have hfacts : (Runs.run (Client.step (api lateRegion)) (Client.initial Bin)
      [.malloc 56, .free 4113, .malloc 40]).map (fun w =>
        (myMalloc lateRegion w.heap 8).map Prod.snd) = some (some 4161) := by decide +kernel
  obtain ⟨w, hrun, hp⟩ := Option.map_eq_some_iff.mp hfacts
  have hreach : Runs.Reach (Client.step (api lateRegion)) (AdmitsLate lateRegion)
      (Client.initial Bin) w := .of_run .start (by decide +kernel) hrun
  obtain ⟨headers, nodes, hblocks, hlinked, hfits⟩ := exact_fit_bins lateRegion_sound hreach
  obtain ⟨s', p, heq, hexact⟩ := hfits 8 (by decide)
  rw [heq] at hp
  exact ⟨w, s', p, headers, nodes, hrun, hblocks, hlinked, by decide, heq,
    Option.some.inj hp, hexact⟩

/-- The break has wrapped around for a block of `2 ^ 63` bytes, whose tag says 0.  Freed, it
lies in the bin of the smallest blocks in front of a block of 16 bytes, and the scan passes
both. -/
theorem exact_fit_bins_fails : highRegion.Sound ∧
    ∃ w, Runs.run (Client.step (api highRegion)) (Client.initial Bin)
        [.malloc 0, .malloc (2 ^ 63 - 8), .free (2 ^ 63 + 16), .free (2 ^ 63 + 32)] = some w ∧
      Runs.Reach (Client.step (api highRegion)) (Client.Disciplined (2 ^ 63) (2 ^ 63))
        (Client.initial Bin) w ∧
      chunkNeed 0 = 16 ∧ ∀ headers nodes s' p, myMalloc highRegion w.heap 0 = some (s', p) →
        ¬ FitsExactly highRegion w.heap 0 headers nodes s' p := by
  have hfacts : (Runs.run (Client.step (api highRegion)) (Client.initial Bin)
      [.malloc 0, .malloc (2 ^ 63 - 8), .free (2 ^ 63 + 16), .free (2 ^ 63 + 32)]).map (fun w =>
        (w.heap.stat.scanSteps, (myMalloc highRegion w.heap 0).map fun result =>
          result.1.stat.scanSteps)) = some (0, some 2) := by decide +kernel
  obtain ⟨w, hrun, hw⟩ := Option.map_eq_some_iff.mp hfacts
  obtain ⟨hbefore, hafter⟩ := Prod.mk.inj hw
  refine ⟨highRegion_sound, w, hrun, .of_run .start (by decide +kernel) hrun, by decide,
    fun headers nodes s' p hmalloc hfits => ?_⟩
  rw [hmalloc] at hafter
  have hsteps : s'.stat.scanSteps = 2 := Option.some.inj hafter
  obtain ⟨steps, hle, hscan⟩ := hfits.scan
  rw [hsteps, hbefore] at hscan
  unfold ptrAdd at hscan
  omega

end Segregated

end AllocSitter
