/-
`my_malloc` on a region that may come late.  Where the first `mmap` call of a request fails
and the second one does not, the first block starts 13 bytes behind the base, and the next
one 15 bytes behind the end of it: the row has gaps, but the lists do not see them.  All
that is needed is that no sum of `arena_extend` wraps around.
-/
import AllocSitter.ArenaBreak

namespace AllocSitter

open ByteMemory LinkedChain Tiling

variable {ι : Type}

section Room

variable {account : Nat → AllocStat → AllocStat} {s : Globals ι} {blocks : List Block}
  {need pad base : Nat}

theorem ArenaRoom.of_unmapped (hbase : s.arenaBase = 0) (hcur : s.arenaCur = 0) :
    ArenaRoom s [] :=
  ⟨fun _ => rfl, fun _ => hcur, fun hne => absurd hbase hne, fun hne => absurd hbase hne,
    fun hne => absurd rfl hne⟩

/-- A region without blocks, with the break at its base. -/
theorem ArenaRoom.of_installed
    (hregion : base % 4096 = 0 ∧ 4096 ≤ base ∧ base + arenaSize < 2 ^ 64)
    (hbase : s.arenaBase = base) (hcur : s.arenaCur = base)
    (hend : s.arenaEnd = ptrAdd base arenaSize) : ArenaRoom s [] := by
  have hstop : s.arenaEnd = base + arenaSize := hend.trans (ptrAdd_of_lt hregion.2.2)
  refine ⟨fun _ => rfl, fun hzero => ?_, fun _ => ?_, fun _ => ?_, fun hne => absurd rfl hne⟩
  · omega
  · rw [hbase]
    exact ⟨hregion.1, hregion.2.1, hregion.2.2, hstop⟩
  · omega

/-- The next header goes 12 bytes behind the base at the earliest. -/
theorem ArenaRoom.padded (h : ArenaRoom s blocks) (hbase : s.arenaBase ≠ 0) :
    s.arenaBase + 12 ≤ s.arenaCur + ptrSub 12 s.arenaCur % 16 := by
  obtain ⟨hpage, _⟩ := h.region hbase
  obtain ⟨hlow, _⟩ := h.top hbase
  have hlt := h.cur_lt hbase
  unfold ptrSub
  omega

theorem ArenaRoom.grown {d : Block} (h : ArenaRoom s blocks) (hbase : s.arenaBase ≠ 0)
    (hlow : s.arenaBase + 12 ≤ s.arenaCur + pad) (haddr : d.addr = s.arenaCur + pad)
    (hsize : d.size = need) (hend : s.arenaCur + need + pad ≤ s.arenaEnd) :
    ArenaRoom (AllocSitter.grown account s need pad) (blocks ++ [d]) := by
  obtain ⟨hbelow, _⟩ := h.top hbase
  refine ⟨fun hzero => absurd hzero hbase, fun hzero => absurd hzero hbase, h.region,
    fun _ => ?_, fun _ => ?_⟩
  · change s.arenaBase ≤ s.arenaCur + (need + pad) ∧ s.arenaCur + (need + pad) ≤ s.arenaEnd
    omega
  · change Spread Block.addr Block.size (s.arenaBase + 12) (blocks ++ [d])
      (s.arenaCur + (need + pad))
    have hrow : Spread Block.addr Block.size (s.arenaBase + 12) blocks d.addr := by
      by_cases hnil : blocks = []
      · rw [hnil]
        exact haddr ▸ hlow
      · exact (h.spread hnil).mono_right (by omega)
    have hconcat := hrow.concat (Nat.le_refl d.addr)
    rwa [haddr, hsize, show s.arenaCur + pad + need = s.arenaCur + (need + pad) by omega]
      at hconcat

end Room

section Answer

variable [DecidableEq ι] {binOf : Nat → ι} {account : Nat → AllocStat → AllocStat} {mmap : Mmap}
  {s : Globals ι} {L : Layout ι} {need size : Nat}

/-- The arena has no room for a request that misses the lists. -/
def Refuses (binOf : Nat → ι) (s : Globals ι) (size : Nat) : Prop :=
  ScanMisses binOf s size ∧
    s.arenaEnd < s.arenaCur + chunkNeed size + ptrSub 12 s.arenaCur % 16

instance (binOf : Nat → ι) (s : Globals ι) (size : Nat) : Decidable (Refuses binOf s size) :=
  inferInstanceAs (Decidable (_ ∧ _))

/-- What `my_malloc` does for a request: it returns a used block of the size that the request
needs, or nothing where there is no room, and the bytes of the used blocks stay. -/
structure Answered (binOf : Nat → ι) (account : Nat → AllocStat → AllocStat) (mmap : Mmap)
    (s : Globals ι) (L : Layout ι) (size : Nat) (s' : Globals ι) (p : Nat) (L' : Layout ι) :
    Prop where
  gains : Gains account s L (chunkNeed size) s' p L'
  pooled : Pooled binOf s' L'
  kept : ∀ b ∈ Layout.usedBlocks L.blocks, SameOn s.mem s'.mem b.addr b.size
  grows : s.arenaBase ≠ 0 → s'.arenaBase = s.arenaBase ∧ s.arenaCur ≤ s'.arenaCur
  /-- A region comes from `mmap`. -/
  region : s.arenaBase = 0 → s'.arenaBase ≠ 0 → ∃ k, mmap k = some s'.arenaBase
  refused : s.arenaBase ≠ 0 → (p = 0 ↔ Refuses binOf s size)

/-- What the end of `my_malloc` does with the region of `t`: it has no room for the block, or
writes it `pad` bytes behind the break. -/
structure Extended (binOf : Nat → ι) (account : Nat → AllocStat → AllocStat) (t : Globals ι)
    (L : Layout ι) (need pad : Nat) (s' : Globals ι) (p : Nat) (L' : Layout ι) : Prop where
  result : (p = 0 ∧ L' = L ∧ s'.stat = t.stat ∧ t.arenaEnd < t.arenaCur + need + pad) ∨
    ∃ u : Block, p = u.payload ∧ u.size = need ∧ u.used = true ∧
      L'.blocks = L.blocks ++ [u] ∧ s'.stat = account need (addRealBytes t.stat (need + pad)) ∧
      t.arenaCur + need + pad ≤ t.arenaEnd
  pooled : Pooled binOf s' L'
  kept : ∀ b ∈ L.blocks, SameOn t.mem s'.mem b.addr b.size
  base : s'.arenaBase = t.arenaBase
  grows : t.arenaCur ≤ s'.arenaCur

theorem extendHeap_pooled {s₁ t : Globals ι} {cur pad : Nat}
    (haccount : ∀ n stat, (account n stat).freelistLen = stat.freelistLen)
    (hfirst : arenaExtend mmap s 0 = (s₁, cur)) (hpad : ptrSub 12 cur % 16 = pad)
    (hsecond : arenaExtend mmap s₁ (need + pad) = moveBreak t (need + pad))
    (h : Pooled binOf t L) (hbase : t.arenaBase ≠ 0)
    (hlow : t.arenaBase + 12 ≤ t.arenaCur + pad) (hge : 16 ≤ need) (hmod : need % 16 = 0)
    (hwrap : t.arenaCur + need + pad < 2 ^ 64) :
    ∃ s' p L', extendHeap account mmap s need = (s', p) ∧
      Extended binOf account t L need pad s' p L' := by
  have hsum : ptrAdd t.arenaCur (need + pad) = t.arenaCur + (need + pad) :=
    ptrAdd_of_lt (by omega)
  have hpos : need + pad ≠ 0 := by omega
  rw [moveBreak, if_neg hpos, hsum] at hsecond
  have htop : Pooled binOf { t with heapHi := t.arenaCur } L :=
    ⟨h.threaded, ⟨h.arena.unmapped, h.arena.idle, h.arena.region, h.arena.top, h.arena.spread⟩,
      h.binned, h.length⟩
  by_cases hfull : t.arenaCur + (need + pad) > t.arenaEnd
  · rw [if_pos hfull] at hsecond
    refine ⟨{ t with heapHi := t.arenaCur }, 0, L, ?_,
      ⟨Or.inl ⟨rfl, rfl, rfl, by omega⟩, htop, fun b _ => SameOn.refl _ _ _, rfl, Nat.le_refl _⟩⟩
    have hn : ptrAdd need pad = need + pad := ptrAdd_of_lt (by omega)
    have hthird : arenaExtend mmap t 0 = (t, t.arenaCur) := arenaExtend_zero hbase
    simp only [extendHeap, hfirst, hpad, hn, hsecond, hthird, ↓reduceIte]
  · rw [if_neg hfull] at hsecond
    obtain ⟨_, _, _, hend⟩ := h.room.region hbase
    simp only [arenaSize] at hend
    have hsmall : need < 2 ^ 32 := by omega
    generalize hd : Block.fresh (t.arenaCur + pad) need true hge hmod = d
    have haddr : d.addr = t.arenaCur + pad := by rw [← hd]; rfl
    have hsize : d.size = need := by rw [← hd]; rfl
    have hhead : d.head = need + 1 := by rw [← hd]; rfl
    have hfoot : d.foot = d.used := by rw [← hd]; rfl
    have hused : d.used = true := by rw [← hd]; rfl
    obtain ⟨hpooled, hframe⟩ := htop.grown hbase haddr hhead hused hfoot (by omega) hsmall
      haccount (h.arena.grown hbase hlow haddr hsize (by omega))
    refine ⟨_, _, _, extendHeap_grown hfirst hpad hsecond hbase hge hmod hsmall hwrap,
      ⟨Or.inr ⟨d, ?_, hsize, hused, rfl, rfl, by omega⟩, hpooled, hframe, rfl,
        Nat.le_add_right _ _⟩⟩
    rw [Block.payload, haddr]

/-- The extension as the answer to a request that has missed the lists in `s`. -/
theorem Extended.answered {t s' : Globals ι} {L' : Layout ι} {pad p steps : Nat}
    (hext : Extended binOf account t L (chunkNeed size) pad s' p L')
    (hstat : t.stat = (addScanSteps s steps).stat)
    (hmem : ∀ b ∈ L.blocks, SameOn s.mem t.mem b.addr b.size)
    (hmapped : s.arenaBase ≠ 0 → ScanMisses binOf s size ∧ t = addScanSteps s steps ∧
      pad = ptrSub 12 s.arenaCur % 16)
    (hregion : s.arenaBase = 0 → ∃ k, mmap k = some t.arenaBase) :
    Answered binOf account mmap s L size s' p L' := by
  refine ⟨?_, hext.pooled, ?_, fun hbase => ?_, fun hbase _ => ?_, fun hbase => ?_⟩
  · rcases hext.result with ⟨hp, hL, hs', _⟩ | ⟨u, hp, hsize, hused, hblocks, hs', _⟩
    · exact Or.inl ⟨hp, hL, steps, hs'.trans hstat⟩
    · rw [hstat] at hs'
      refine Or.inr ⟨u, steps, _, _, hp, hsize, ?_, hs'⟩
      rw [hblocks]
      simpa using Layout.usedBlocks_used L.blocks [] hused
  · intro b hb
    have hrow := (Layout.mem_usedBlocks.mp hb).1
    exact (hmem b hrow).trans (hext.kept b hrow)
  · obtain ⟨_, rfl, _⟩ := hmapped hbase
    exact ⟨hext.base, hext.grows⟩
  · rw [hext.base]
    exact hregion hbase
  · obtain ⟨hmisses, rfl, rfl⟩ := hmapped hbase
    rcases hext.result with ⟨hp, _, _, hfull⟩ | ⟨u, hp, _, _, _, _, hroom⟩
    · exact iff_of_true hp ⟨hmisses, hfull⟩
    · refine iff_of_false (by rw [hp]; exact Nat.succ_ne_zero _) fun hrefuses => ?_
      exact absurd hrefuses.2 (Nat.not_lt.mpr hroom)

variable (haccount : ∀ n stat, (account n stat).freelistLen = stat.freelistLen)
  (hsound : mmap.Sound) (h : Pooled binOf s L) (hsize : size + 40 ≤ 2 ^ 64)

include haccount h hsize

/-- The lists have a block. -/
theorem mallocWith_pooled_found (hfound : ¬ ScanMisses binOf s size) :
    ∃ s' p L', mallocWith binOf account mmap s size = some (s', p) ∧
      Answered binOf account mmap s L size s' p L' := by
  obtain ⟨c, hc⟩ : ∃ c, (L.lists (binOf (chunkNeed size))).find?
      (fun b => decide (chunkNeed size ≤ b.size)) = some c := by
    rw [h.scanMisses_iff hsize] at hfound
    push Not at hfound
    obtain ⟨b, hb, hfit⟩ := hfound
    exact Option.isSome_iff_exists.mp (List.find?_isSome.mpr ⟨b, hb, decide_eq_true hfit⟩)
  obtain ⟨hfit, front, back, hlist, hfront⟩ := List.find?_eq_some_iff_append.mp hc
  obtain ⟨s', L', heq, hcase, hpooled, hframe⟩ := mallocWith_found haccount h hsize hlist
    (fun b hb => by simpa using hfront b hb) (by simpa using hfit)
  have hbase := h.room.base_ne_zero (List.ne_nil_of_mem
    (h.binned.mem_iff.mp (show c ∈ L.lists (binOf (chunkNeed size)) by simp [hlist])).1)
  refine ⟨s', _, L', heq, hcase.gains h.lists_free, hpooled, fun b hb => ?_,
    hcase.grows, fun hunmapped => absurd hunmapped hbase,
    fun _ => iff_of_false (Nat.succ_ne_zero _) fun hrefuses => hfound hrefuses.1⟩
  exact hframe b (Layout.mem_usedBlocks.mp hb).1 (Layout.mem_usedBlocks.mp hb).2

include hsound

/-- The lists have none, and there is no region yet. -/
theorem extendHeap_pooled_unmapped {s₁ : Globals ι} {steps : Nat}
    (hs₁ : s₁ = addScanSteps s steps) (hbase : s.arenaBase = 0)
    (hsum : SumSafe mmap s (chunkNeed size)) :
    ∃ s' p L', extendHeap account mmap s₁ (chunkNeed size) = (s', p) ∧
      Answered binOf account mmap s L size s' p L' := by
  obtain ⟨hge, hmod, _⟩ := chunkNeed_bounds hsize
  have hnil := h.arena.unmapped hbase
  have hnone : ∀ {m m' : Memory}, ∀ b ∈ L.blocks, SameOn m m' b.addr b.size := by simp [hnil]
  have hunmapped : s₁.arenaBase = 0 := by rw [hs₁]; exact hbase
  have hidle : s₁.arenaCur = 0 := by rw [hs₁]; exact h.arena.idle hbase
  have hcalls : s₁.mmapCalls = s.mmapCalls := by rw [hs₁]; rfl
  have hstat : s₁.stat = (addScanSteps s steps).stat := by rw [hs₁]
  have hinstalled : ∀ {t : Globals ι} {base : Nat}, t.freeHead = s.freeHead →
      t.stat.freelistLen = s.stat.freelistLen → (∃ k, mmap k = some base) →
      Pooled binOf (installArena t base) L ∧ base % 4096 = 0 ∧ base ≠ 0 := by
    rintro t base hhead hlen ⟨k, hmap⟩
    obtain ⟨hpage, hlow, hend⟩ := hsound k base hmap
    exact ⟨h.of_no_blocks hnil hhead hlen (.of_installed ⟨hpage, hlow, hend⟩ rfl rfl rfl), hpage,
      by omega⟩
  simp only [SumSafe, hbase, ↓reduceIte] at hsum
  cases hfirst : mmap s.mmapCalls with
  | some base =>
      rw [hfirst] at hsum
      obtain ⟨hpooled, hpage, hpos⟩ := hinstalled (t := s₁) (by rw [hs₁]; rfl) (by rw [hs₁]; rfl)
        ⟨_, hfirst⟩
      have hpad : ptrSub 12 base % 16 = 12 := by
        have hlt := (hsound _ _ hfirst).2.2
        unfold ptrSub
        omega
      have hfirst' : arenaExtend mmap s₁ 0 = (installArena s₁ base, base) := by
        simp [arenaExtend, hunmapped, hcalls, hfirst, moveBreak, installArena]
      have hsecond : arenaExtend mmap (installArena s₁ base) (chunkNeed size + 12) =
          moveBreak (installArena s₁ base) (chunkNeed size + 12) := by
        simp [arenaExtend, installArena, hpos]
      obtain ⟨s', p, L', heq, hext⟩ := extendHeap_pooled haccount hfirst' hpad hsecond hpooled
        hpos (Nat.le_refl _) hge hmod hsum
      exact ⟨s', p, L', heq, hext.answered hstat hnone (fun hne => absurd hbase hne)
        fun _ => ⟨_, hfirst⟩⟩
  | none =>
      rw [hfirst] at hsum
      have hfirst' : arenaExtend mmap s₁ 0 =
          ({ s₁ with mmapCalls := s₁.mmapCalls + 1 }, mapFailed) := by
        simp [arenaExtend, hunmapped, hcalls, hfirst]
      cases hsecond : mmap (s.mmapCalls + 1) with
      | some base =>
          rw [hsecond] at hsum
          obtain ⟨hpooled, _, hpos⟩ := hinstalled
            (t := { s₁ with mmapCalls := s₁.mmapCalls + 1 }) (by rw [hs₁]; rfl) (by rw [hs₁]; rfl)
            ⟨_, hsecond⟩
          have hsecond' : arenaExtend mmap { s₁ with mmapCalls := s₁.mmapCalls + 1 }
              (chunkNeed size + 13) =
              moveBreak (installArena { s₁ with mmapCalls := s₁.mmapCalls + 1 } base)
                (chunkNeed size + 13) := by
            simp [arenaExtend, hunmapped, hcalls, hsecond]
          -- The padding is computed from the failure value of the first call.
          obtain ⟨s', p, L', heq, hext⟩ := extendHeap_pooled haccount hfirst' (by decide) hsecond'
            hpooled hpos (Nat.le_succ _) hge hmod hsum
          exact ⟨s', p, L', heq, hext.answered hstat hnone (fun hne => absurd hbase hne)
            fun _ => ⟨_, hsecond⟩⟩
      | none =>
          obtain ⟨s', heq, hhead, hstat', harena, hregion⟩ : ∃ s' : Globals ι,
              extendHeap account mmap s₁ (chunkNeed size) = (s', 0) ∧
              s'.freeHead = s.freeHead ∧ s'.stat = s₁.stat ∧ ArenaRoom s' [] ∧
              (s'.arenaBase ≠ 0 → ∃ k, mmap k = some s'.arenaBase) := by
            cases hthird : mmap (s.mmapCalls + 1 + 1) with
            | none =>
                refine ⟨{ s₁ with mmapCalls := s₁.mmapCalls + 3, heapHi := mapFailed }, ?_,
                  by rw [hs₁]; rfl, rfl, .of_unmapped hunmapped hidle,
                  fun hne => absurd hunmapped hne⟩
                simp [extendHeap, arenaExtend, hunmapped, hcalls, hfirst, hsecond, hthird]
            | some base =>
                refine ⟨installed { s₁ with mmapCalls := s₁.mmapCalls + 2 } base, ?_,
                  by rw [hs₁]; rfl, rfl, .of_installed (hsound _ _ hthird) rfl rfl rfl,
                  fun _ => ⟨_, hthird⟩⟩
                simp [extendHeap, arenaExtend, hunmapped, hcalls, hfirst, hsecond, hthird,
                  moveBreak, installed, installArena]
          refine ⟨s', 0, L, heq, Or.inl ⟨rfl, rfl, steps, hstat'.trans hstat⟩,
            h.of_no_blocks hnil hhead ?_ harena, fun b hb => ?_, fun hne => absurd hbase hne,
            fun _ => hregion, fun hne => absurd hbase hne⟩
          · rw [hstat', hstat]
            rfl
          · exact hnone b (Layout.mem_usedBlocks.mp hb).1

/-- `my_malloc` answers every request whose sums do not wrap. -/
theorem mallocWith_pooled (hsafe : BreakSafe binOf mmap s (some size)) :
    ∃ s' p L', mallocWith binOf account mmap s size = some (s', p) ∧
      Answered binOf account mmap s L size s' p L' := by
  by_cases hmisses : ScanMisses binOf s size
  · have hsum := hsafe size rfl hmisses
    obtain ⟨steps, hwalk⟩ := hmisses
    have hmalloc : mallocWith binOf account mmap s size =
        some (extendHeap account mmap (addScanSteps s steps) (chunkNeed size)) := by
      simp only [mallocWith, hwalk]
    rw [hmalloc]
    by_cases hbase : s.arenaBase = 0
    · obtain ⟨s', p, L', heq, hanswered⟩ :=
        extendHeap_pooled_unmapped haccount hsound h hsize rfl hbase hsum
      exact ⟨s', p, L', by rw [heq], hanswered⟩
    · simp only [SumSafe, hbase, ↓reduceIte] at hsum
      obtain ⟨hge, hmod, _⟩ := chunkNeed_bounds hsize
      have hsecond : ∀ n, arenaExtend mmap (addScanSteps s steps) n =
          moveBreak (addScanSteps s steps) n := by
        intro n
        have hbase' : (addScanSteps s steps).arenaBase ≠ 0 := hbase
        simp [arenaExtend, hbase']
      obtain ⟨s', p, L', heq, hext⟩ := extendHeap_pooled haccount
        (arenaExtend_zero (show (addScanSteps s steps).arenaBase ≠ 0 from hbase)) rfl
        (hsecond _) (h.addScanSteps steps) hbase (h.arena.padded hbase) hge hmod hsum
      exact ⟨s', p, L', by rw [heq], hext.answered rfl (fun b _ => SameOn.refl _ _ _)
        (fun _ => ⟨⟨steps, hwalk⟩, rfl, rfl⟩) fun hunmapped => absurd hunmapped hbase⟩
  · exact mallocWith_pooled_found haccount h hsize hmisses

end Answer

end AllocSitter
