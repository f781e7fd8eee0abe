/-
The break of the arena in runs with requests of any size, well formed heap or
not: only `arena_extend` moves it, and it moves back exactly when the sum in the
guard of `arena_extend` wraps around the address space.
-/
import AllocSitter.HeapShape

namespace AllocSitter

open ByteMemory LinkedChain

variable {ι : Type}

/-- Once the region exists, the break lies in it. -/
def ArenaOrdered (s : Globals ι) : Prop :=
  s.arenaBase ≠ 0 → s.arenaBase ≤ s.arenaCur ∧ s.arenaCur ≤ s.arenaEnd

/-- Once the region exists, the break does not move back. -/
def BreakAdvances (s s' : Globals ι) : Prop :=
  s.arenaBase ≠ 0 → s.arenaCur ≤ s'.arenaCur

/-- The sum that `arena_extend` compares with the end is the true sum. -/
def SumSafe (mmap : Mmap) (s : Globals ι) (need : Nat) : Prop :=
  if s.arenaBase = 0 then
    match mmap s.mmapCalls with
    | some base => base + need + 12 < 2 ^ 64
    | none =>
        match mmap (s.mmapCalls + 1) with
        | some base => base + need + 13 < 2 ^ 64
        | none => True
  else s.arenaCur + need + ptrSub 12 s.arenaCur % 16 < 2 ^ 64

instance (mmap : Mmap) (s : Globals ι) (need : Nat) : Decidable (SumSafe mmap s need) :=
  if hbase : s.arenaBase = 0 then
    match hfirst : mmap s.mmapCalls, hsecond : mmap (s.mmapCalls + 1) with
    | some base, _ => decidable_of_iff (base + need + 12 < 2 ^ 64)
        (by simp only [SumSafe, hbase, hfirst, ↓reduceIte])
    | none, some base => decidable_of_iff (base + need + 13 < 2 ^ 64)
        (by simp only [SumSafe, hbase, hfirst, hsecond, ↓reduceIte])
    | none, none => .isTrue (by simp only [SumSafe, hbase, hfirst, hsecond, ↓reduceIte])
  else decidable_of_iff (s.arenaCur + need + ptrSub 12 s.arenaCur % 16 < 2 ^ 64)
    (by simp only [SumSafe, hbase, ↓reduceIte])

/-- What the code keeps true of the arena: nothing is set before the region
exists, and then the region does not wrap and holds the break. -/
structure ArenaSound (s : Globals ι) : Prop where
  unmapped : s.arenaBase = 0 → s.arenaCur = 0
  region : s.arenaBase ≠ 0 → s.arenaEnd < 2 ^ 64
  ordered : ArenaOrdered s

theorem arenaSound_initial (ι : Type) : ArenaSound (Globals.initial ι) :=
  ⟨fun _ => rfl, fun h => absurd rfl h, fun h => absurd rfl h⟩

theorem ArenaSound.of_eq {s s' : Globals ι} (h : ArenaSound s)
    (hbase : s'.arenaBase = s.arenaBase) (hcur : s'.arenaCur = s.arenaCur)
    (hend : s'.arenaEnd = s.arenaEnd) : ArenaSound s' := by
  obtain ⟨hunmapped, hregion, hordered⟩ := h
  unfold ArenaOrdered at hordered
  rw [← hbase, ← hcur] at hunmapped
  rw [← hbase, ← hend] at hregion
  rw [← hbase, ← hcur, ← hend] at hordered
  exact ⟨hunmapped, hregion, hordered⟩

theorem ArenaSound.of_same {s s' : Globals ι} (h : ArenaSound s) (hsame : SameArena s s') :
    ArenaSound s' :=
  h.of_eq hsame.arenaBase hsame.arenaCur hsame.arenaEnd

theorem arenaSound_installArena {mmap : Mmap} (hsound : mmap.Sound) {k base : Nat}
    (hmap : mmap k = some base) (s : Globals ι) : ArenaSound (installArena s base) := by
  obtain ⟨_, hpage, hend⟩ := hsound k base hmap
  have heq : ptrAdd base arenaSize = base + arenaSize := ptrAdd_of_lt hend
  refine ⟨?_, ?_, ?_⟩
  · intro hzero
    change base = 0 at hzero
    omega
  · intro _
    change ptrAdd base arenaSize < 2 ^ 64
    omega
  · intro _
    change base ≤ base ∧ base ≤ ptrAdd base arenaSize
    omega

/-- How the break moves between two states with the same region: forward inside
it if `sum` is below `2 ^ 64`, and back otherwise. -/
structure MovesTo (s : Globals ι) (sum : Nat) (s' : Globals ι) : Prop where
  base : s'.arenaBase = s.arenaBase
  stop : s'.arenaEnd = s.arenaEnd
  forward : sum < 2 ^ 64 → s.arenaCur ≤ s'.arenaCur ∧ s'.arenaCur ≤ s.arenaEnd
  back : 2 ^ 64 ≤ sum → s'.arenaCur < s.arenaCur

variable {mmap : Mmap} {s s' : Globals ι}

/-- The guard on the wrapped sum lets every sum from `2 ^ 64` on pass. -/
theorem moveBreak_movesTo (h : ArenaSound s) (hbase : s.arenaBase ≠ 0) {n : Nat}
    (hn : n < 2 ^ 64) : MovesTo s (s.arenaCur + n) (moveBreak s n).1 := by
  obtain ⟨_, hle⟩ := h.ordered hbase
  have hlt := h.region hbase
  unfold moveBreak
  by_cases hzero : n = 0
  · rw [if_pos hzero]
    exact ⟨rfl, rfl, fun _ => ⟨Nat.le_refl _, hle⟩, fun hwrap => by omega⟩
  · rw [if_neg hzero]
    by_cases hwrap : s.arenaCur + n < 2 ^ 64
    · rw [ptrAdd_of_lt hwrap]
      by_cases hfull : s.arenaCur + n > s.arenaEnd
      · rw [if_pos hfull]
        exact ⟨rfl, rfl, fun _ => ⟨Nat.le_refl _, hle⟩, fun hback => by omega⟩
      · rw [if_neg hfull]
        refine ⟨rfl, rfl, fun _ => ?_, fun hback => by omega⟩
        change s.arenaCur ≤ s.arenaCur + n ∧ s.arenaCur + n ≤ s.arenaEnd
        omega
    · have hback : ptrAdd s.arenaCur n < s.arenaCur := by
        unfold ptrAdd
        omega
      rw [if_neg (by omega)]
      exact ⟨rfl, rfl, fun hok => absurd hok hwrap, fun _ => hback⟩

theorem MovesTo.arenaSound {sum : Nat} (h : ArenaSound s) (hbase : s.arenaBase ≠ 0)
    (hmoves : MovesTo s sum s') (hsum : sum < 2 ^ 64) : ArenaSound s' := by
  obtain ⟨hlow, _⟩ := h.ordered hbase
  have hregion := h.region hbase
  obtain ⟨hforward, hin⟩ := hmoves.forward hsum
  refine ⟨fun hzero => ?_, fun _ => ?_, fun _ => ?_⟩
  · rw [hmoves.base] at hzero
    exact absurd hzero hbase
  · rw [hmoves.stop]
    exact hregion
  · rw [hmoves.base, hmoves.stop]
    omega

section Extend

variable {account : Nat → AllocStat → AllocStat} {need : Nat}

/-- The arena after `extendHeap` is the arena after its three `arena_extend`s. -/
theorem extendHeap_arena (account : Nat → AllocStat → AllocStat) {s₁ s₂ s₃ : Globals ι}
    {cur p hi : Nat} (hfirst : arenaExtend mmap s 0 = (s₁, cur))
    (hsecond : arenaExtend mmap s₁ (ptrAdd need (ptrSub 12 cur % 16)) = (s₂, p))
    (hthird : arenaExtend mmap s₂ 0 = (s₃, hi)) :
    (extendHeap account mmap s need).1.arenaBase = s₃.arenaBase ∧
      (extendHeap account mmap s need).1.arenaCur = s₃.arenaCur ∧
      (extendHeap account mmap s need).1.arenaEnd = s₃.arenaEnd := by
  simp only [extendHeap, hfirst, hsecond, hthird]
  by_cases hfail : p = mapFailed
  · rw [if_pos hfail]
    exact ⟨rfl, rfl, rfl⟩
  · rw [if_neg hfail]
    by_cases hlo : s₃.heapLo = 0
    · rw [if_pos hlo]
      exact ⟨rfl, rfl, rfl⟩
    · rw [if_neg hlo]
      exact ⟨rfl, rfl, rfl⟩

/-- A request on a mapped region moves the break by the request and the padding. -/
theorem extendHeap_movesTo (account : Nat → AllocStat → AllocStat) (mmap : Mmap)
    (h : ArenaSound s)
    (hbase : s.arenaBase ≠ 0) (hneed : need + 16 ≤ 2 ^ 64) :
    MovesTo s (s.arenaCur + need + ptrSub 12 s.arenaCur % 16)
      (extendHeap account mmap s need).1 := by
  have hpad := Nat.mod_lt (ptrSub 12 s.arenaCur) (show 0 < 16 by decide)
  generalize hp : ptrSub 12 s.arenaCur % 16 = pad at hpad
  have hsum : ptrAdd need pad = need + pad := ptrAdd_of_lt (by omega)
  have hmoves := moveBreak_movesTo h hbase (show need + pad < 2 ^ 64 by omega)
  have hsecond : arenaExtend mmap s (ptrAdd need (ptrSub 12 s.arenaCur % 16)) =
      ((moveBreak s (need + pad)).1, (moveBreak s (need + pad)).2) := by
    rw [hp, hsum]
    simp only [arenaExtend, hbase, ↓reduceIte]
  have hthird : arenaExtend mmap (moveBreak s (need + pad)).1 0 =
      ((moveBreak s (need + pad)).1, (moveBreak s (need + pad)).1.arenaCur) := by
    apply arenaExtend_zero
    rw [hmoves.base]
    exact hbase
  obtain ⟨hbase', hcur', hend'⟩ :=
    extendHeap_arena account (arenaExtend_zero hbase) hsecond hthird
  rw [Nat.add_assoc]
  refine ⟨hbase'.trans hmoves.base, hend'.trans hmoves.stop, ?_, ?_⟩
  · rw [hcur']
    exact hmoves.forward
  · rw [hcur']
    exact hmoves.back

/-- A region that arrives with the second `mmap` call is asked for one byte more:
the padding was computed from the failure value of the first. -/
theorem extendHeap_movesTo_late (account : Nat → AllocStat → AllocStat)
    (hsound : mmap.Sound) (hneed : need + 16 ≤ 2 ^ 64) (hbase : s.arenaBase = 0)
    (hfirst : mmap s.mmapCalls = none) {base : Nat}
    (hsecond : mmap (s.mmapCalls + 1) = some base) :
    MovesTo (installArena { s with mmapCalls := s.mmapCalls + 1 } base) (base + need + 13)
      (extendHeap account mmap s need).1 := by
  let s₁ : Globals ι := { s with mmapCalls := s.mmapCalls + 1 }
  have h₁ : ArenaSound (installArena s₁ base) := arenaSound_installArena hsound hsecond s₁
  have hpage := (hsound _ _ hsecond).2.1
  have hbase₁ : (installArena s₁ base).arenaBase ≠ 0 := by
    change base ≠ 0
    omega
  have hmoves := moveBreak_movesTo h₁ hbase₁ (show need + 13 < 2 ^ 64 by omega)
  have hpad : ptrSub 12 mapFailed % 16 = 13 := by decide
  have hfirst' : arenaExtend mmap s 0 = (s₁, mapFailed) := by
    simp [arenaExtend, hbase, hfirst, s₁]
  have hsecond' : arenaExtend mmap s₁ (ptrAdd need (ptrSub 12 mapFailed % 16)) =
      ((moveBreak (installArena s₁ base) (need + 13)).1,
        (moveBreak (installArena s₁ base) (need + 13)).2) := by
    have hunmapped : s₁.arenaBase = 0 := hbase
    have hcall : mmap s₁.mmapCalls = some base := hsecond
    rw [hpad, ptrAdd_of_lt (by omega)]
    simp only [arenaExtend, hunmapped, hcall, ↓reduceIte]
  have hthird : arenaExtend mmap (moveBreak (installArena s₁ base) (need + 13)).1 0 =
      ((moveBreak (installArena s₁ base) (need + 13)).1,
        (moveBreak (installArena s₁ base) (need + 13)).1.arenaCur) := by
    apply arenaExtend_zero
    rw [hmoves.base]
    exact hbase₁
  obtain ⟨hbase', hcur', hend'⟩ := extendHeap_arena account hfirst' hsecond' hthird
  rw [Nat.add_assoc]
  refine ⟨hbase'.trans hmoves.base, hend'.trans hmoves.stop, ?_, ?_⟩
  · rw [hcur']
    exact hmoves.forward
  · rw [hcur']
    exact hmoves.back

/-- Two failures of `mmap` leave nothing but what the third call may bring. -/
theorem extendHeap_nothing (account : Nat → AllocStat → AllocStat) (hsound : mmap.Sound)
    (h : ArenaSound s) (hbase : s.arenaBase = 0) (hfirst : mmap s.mmapCalls = none)
    (hsecond : mmap (s.mmapCalls + 1) = none) :
    ArenaSound (extendHeap account mmap s need).1 := by
  let s₂ : Globals ι := { s with mmapCalls := s.mmapCalls + 1 + 1 }
  have hfirst' : arenaExtend mmap s 0 =
      ({ s with mmapCalls := s.mmapCalls + 1 }, mapFailed) := by
    simp [arenaExtend, hbase, hfirst]
  have hsecond' : arenaExtend mmap { s with mmapCalls := s.mmapCalls + 1 }
      (ptrAdd need (ptrSub 12 mapFailed % 16)) = (s₂, mapFailed) := by
    simp [arenaExtend, hbase, hsecond, s₂]
  have hthird : ∃ s₃ hi, arenaExtend mmap s₂ 0 = (s₃, hi) ∧ ArenaSound s₃ := by
    have hunmapped : s₂.arenaBase = 0 := hbase
    cases hmap : mmap s₂.mmapCalls with
    | none =>
        refine ⟨{ s₂ with mmapCalls := s₂.mmapCalls + 1 }, mapFailed, ?_, h.of_eq rfl rfl rfl⟩
        unfold arenaExtend
        rw [if_pos hunmapped, hmap]
    | some base =>
        refine ⟨installArena s₂ base, base, ?_, arenaSound_installArena hsound hmap s₂⟩
        unfold arenaExtend
        rw [if_pos hunmapped, hmap]
        rfl
  obtain ⟨s₃, hi, hthird, h₃⟩ := hthird
  obtain ⟨hbase', hcur', hend'⟩ := extendHeap_arena account hfirst' hsecond' hthird
  exact h₃.of_eq hbase' hcur' hend'

/-- What a request that misses the lists does to the arena, from a sound one:
the property is kept if and only if the sum is the true one. -/
theorem extendHeap_break (account : Nat → AllocStat → AllocStat) (hsound : mmap.Sound)
    (h : ArenaSound s) (hneed : need + 16 ≤ 2 ^ 64) :
    (SumSafe mmap s need → ArenaSound (extendHeap account mmap s need).1 ∧
        s.arenaCur ≤ (extendHeap account mmap s need).1.arenaCur) ∧
      (¬ SumSafe mmap s need → ¬ (ArenaOrdered (extendHeap account mmap s need).1 ∧
        BreakAdvances s (extendHeap account mmap s need).1)) := by
  by_cases hbase : s.arenaBase = 0
  · have hcur := h.unmapped hbase
    -- A region that has just been installed: the break starts at its base.
    have hfresh : ∀ {s₁ s' : Globals ι} {k base pad : Nat}, mmap k = some base →
        MovesTo (installArena s₁ base) (base + need + pad) s' →
        (base + need + pad < 2 ^ 64 → ArenaSound s' ∧ s.arenaCur ≤ s'.arenaCur) ∧
          (¬ base + need + pad < 2 ^ 64 → ¬ (ArenaOrdered s' ∧ BreakAdvances s s')) := by
      intro s₁ s' k base pad hmap hmoves
      have hpage := (hsound _ _ hmap).2.1
      have hmapped : (installArena s₁ base).arenaBase ≠ 0 := by
        change base ≠ 0
        omega
      refine ⟨fun hsum => ⟨hmoves.arenaSound (arenaSound_installArena hsound hmap s₁)
        hmapped hsum, by omega⟩, ?_⟩
      rintro hsum ⟨hordered, _⟩
      have hback : s'.arenaCur < base := hmoves.back (by omega)
      have hbase' : s'.arenaBase = base := hmoves.base
      have hlow := (hordered (by omega)).1
      omega
    cases hfirst : mmap s.mmapCalls with
    | some base =>
        have hpage := (hsound _ _ hfirst).1
        have hregion := hsound _ _ hfirst
        have hpad : ptrSub 12 base % 16 = 12 := by
          unfold ptrSub
          omega
        have hmoves := extendHeap_movesTo account mmap
          (arenaSound_installArena hsound hfirst s) (by change base ≠ 0; omega) hneed
        rw [← extendHeap_install hbase (by omega) hfirst] at hmoves
        change MovesTo _ (base + need + ptrSub 12 base % 16) _ at hmoves
        rw [hpad] at hmoves
        simpa only [SumSafe, hbase, hfirst, ↓reduceIte] using hfresh hfirst hmoves
    | none =>
        cases hsecond : mmap (s.mmapCalls + 1) with
        | some base =>
            have hmoves := extendHeap_movesTo_late account hsound hneed hbase hfirst hsecond
            simpa only [SumSafe, hbase, hfirst, hsecond, ↓reduceIte] using hfresh hsecond hmoves
        | none =>
            have hsafe : SumSafe mmap s need := by
              simp only [SumSafe, hbase, hfirst, hsecond, ↓reduceIte]
            refine ⟨fun _ => ⟨?_, by omega⟩, fun hharm => absurd hsafe hharm⟩
            exact extendHeap_nothing account hsound h hbase hfirst hsecond
  · have hmoves := extendHeap_movesTo account mmap h hbase hneed
    simp only [SumSafe, hbase, ↓reduceIte]
    refine ⟨fun hsum => ⟨hmoves.arenaSound h hbase hsum, (hmoves.forward hsum).1⟩, ?_⟩
    rintro hsum ⟨_, hadvances⟩
    have hback := hmoves.back (by omega)
    have hforward := hadvances hbase
    omega

end Extend

theorem chunkNeed_le (size : Nat) : chunkNeed size + 16 ≤ 2 ^ 64 := by
  unfold chunkNeed tagSize
  omega

section Malloc

variable [DecidableEq ι] {binOf : Nat → ι} {account : Nat → AllocStat → AllocStat} {size p : Nat}

/-- A scan that finds a block leaves the arena alone. -/
theorem mallocWith_arena (heq : mallocWith binOf account mmap s size = some (s', p)) :
    (¬ ScanMisses binOf s size ∧ SameArena s s') ∨
      (ScanMisses binOf s size ∧ ∃ steps,
        s' = (extendHeap account mmap (addScanSteps s steps) (chunkNeed size)).1) := by
  unfold mallocWith at heq
  unfold ScanMisses
  cases hwalk : walk (nextFree s.mem) 0 (s.freeHead (binOf (chunkNeed size)))
      (fits s.mem (chunkNeed size)) walkFuel .head 0 with
  | none => simp [hwalk] at heq
  | some result =>
      obtain ⟨steps, found⟩ := result
      cases found with
      | none =>
          simp only [hwalk, Option.some.injEq] at heq
          exact Or.inr ⟨⟨steps, rfl⟩, steps, by rw [heq]⟩
      | some link =>
          refine Or.inl ⟨by simp, ?_⟩
          simp only [hwalk] at heq
          have hscan : SameArena s (addScanSteps s steps) := SameArena.of_mem_stat s _ _
          apply hscan.trans
          generalize addScanSteps s steps = s₁ at heq
          split at heq
          · have hs' := congrArg Prod.fst (Option.some.inj heq)
            simp only [splitBlock] at hs'
            rw [← hs']
            exact (SameArena.of_mem_stat s₁ _ _).trans ((setLink_sameArena _ _ _ _).trans
              ((subFreelistLen_sameArena _).trans (freelistPush_sameArena _ _ _)))
          · have hs' := congrArg Prod.fst (Option.some.inj heq)
            simp only [wholeBlock] at hs'
            rw [← hs']
            exact (SameArena.of_mem_stat s₁ _ _).trans ((setLink_sameArena _ _ _ _).trans
              (subFreelistLen_sameArena _))

/-- A request that misses the lists reaches the arena with a sum that is the true
one. -/
def BreakSafe (binOf : Nat → ι) (mmap : Mmap) (s : Globals ι) (request : Option Nat) : Prop :=
  ∀ n, request = some n → ScanMisses binOf s n → SumSafe mmap s (chunkNeed n)

instance (binOf : Nat → ι) (mmap : Mmap) (s : Globals ι) :
    ∀ request, Decidable (BreakSafe binOf mmap s request)
  | none => .isTrue fun _ h => by simp at h
  | some n => decidable_of_iff (ScanMisses binOf s n → SumSafe mmap s (chunkNeed n))
      ⟨fun h _ hn => Option.some.inj hn ▸ h, fun h => h n rfl⟩

theorem mallocWith_break (hsound : mmap.Sound) (h : ArenaSound s)
    (heq : mallocWith binOf account mmap s size = some (s', p)) :
    (BreakSafe binOf mmap s (some size) → ArenaSound s' ∧ s.arenaCur ≤ s'.arenaCur) ∧
      (¬ BreakSafe binOf mmap s (some size) → ¬ (ArenaOrdered s' ∧ BreakAdvances s s')) := by
  rcases mallocWith_arena heq with ⟨hfound, hsame⟩ | ⟨hmiss, steps, rfl⟩
  · refine ⟨fun _ => ⟨h.of_same hsame, Nat.le_of_eq hsame.arenaCur.symm⟩, fun hharm => ?_⟩
    exact absurd (fun n hn hmiss => absurd (Option.some.inj hn ▸ hmiss) hfound) hharm
  · have hscan : ArenaSound (addScanSteps s steps) := h.of_eq rfl rfl rfl
    have hbreak := extendHeap_break account hsound hscan (chunkNeed_le size)
    refine ⟨fun hsafe => hbreak.1 (hsafe size rfl hmiss), fun hharm => hbreak.2 ?_⟩
    intro hsum
    exact hharm fun n hn _ => Option.some.inj hn ▸ hsum

end Malloc

section Runs

variable [DecidableEq ι] {binOf : Nat → ι} {account : Nat → AllocStat → AllocStat}
  {api : Api ι} {request : Globals ι → Call → Option Nat} {call : Call} {w w' : Client ι}

/-- A call touches the arena only through one call of `my_malloc`, made in the
state in which the call starts. -/
def PassesOn (binOf : Nat → ι) (account : Nat → AllocStat → AllocStat) (mmap : Mmap)
    (request : Globals ι → Call → Option Nat) (s : Globals ι) (call : Call)
    (s' : Globals ι) : Prop :=
  (request s call = none ∧ SameArena s s') ∨
    ∃ n s₁ p, request s call = some n ∧
      mallocWith binOf account mmap s n = some (s₁, p) ∧ SameArena s₁ s'

theorem PassesOn.break (hsound : mmap.Sound) (h : ArenaSound s)
    (hpasses : PassesOn binOf account mmap request s call s') :
    (BreakSafe binOf mmap s (request s call) → ArenaSound s' ∧ s.arenaCur ≤ s'.arenaCur) ∧
      (¬ BreakSafe binOf mmap s (request s call) →
        ¬ (ArenaOrdered s' ∧ BreakAdvances s s')) := by
  rcases hpasses with ⟨hnone, hsame⟩ | ⟨n, s₁, p, hsome, heq, hsame⟩
  · refine ⟨fun _ => ⟨h.of_same hsame, Nat.le_of_eq hsame.arenaCur.symm⟩, fun hharm => ?_⟩
    rw [hnone] at hharm
    exact absurd (fun n hn => by simp at hn) hharm
  · rw [hsome]
    obtain ⟨hkeeps, hbreaks⟩ := mallocWith_break hsound h heq
    constructor
    · intro hsafe
      obtain ⟨h₁, hle⟩ := hkeeps hsafe
      exact ⟨h₁.of_same hsame, hsame.arenaCur ▸ hle⟩
    · rintro hharm ⟨hordered, hadvances⟩
      apply hbreaks hharm
      unfold ArenaOrdered BreakAdvances at *
      rw [hsame.arenaBase, hsame.arenaCur, hsame.arenaEnd] at hordered
      rw [hsame.arenaCur] at hadvances
      exact ⟨hordered, hadvances⟩

/-- What is said of the break in the runs of an allocator whose calls meet
`admits`: it stays in the region and does not move back, and of the next call
that returns this is true if and only if the call meets `admits`. -/
structure BreakHolds (api : Api ι) (admits : Client ι → Call → Prop) : Prop where
  ordered : ∀ w, Runs.Reach (Client.step api) admits (Client.initial ι) w →
    ArenaOrdered w.heap
  advances : ∀ w w', Runs.Reach (Client.step api) admits (Client.initial ι) w →
    Runs.Reach (Client.step api) admits w w' → BreakAdvances w.heap w'.heap
  exact_step : ∀ w call w', Runs.Reach (Client.step api) admits (Client.initial ι) w →
    w.Allows call → w.step api call = some w' →
    (ArenaOrdered w'.heap ∧ BreakAdvances w.heap w'.heap ↔ admits w call)

/-- A call of a client with any sizes whose request, if it reaches the arena, does
not wrap there. -/
def SumAdmits (binOf : Nat → ι) (request : Globals ι → Call → Option Nat) (mmap : Mmap)
    (w : Client ι) (call : Call) : Prop :=
  w.Allows call ∧ BreakSafe binOf mmap w.heap (request w.heap call)

instance (binOf : Nat → ι) (request : Globals ι → Call → Option Nat) (mmap : Mmap)
    (w : Client ι) (call : Call) : Decidable (SumAdmits binOf request mmap w call) :=
  inferInstanceAs (Decidable (_ ∧ _))

theorem breakHolds (hsound : mmap.Sound)
    (hpasses : ∀ s call s', Client.heapAfter api s call = some s' →
      PassesOn binOf account mmap request s call s') :
    BreakHolds api (SumAdmits binOf request mmap) := by
  have hstep : ∀ (before : Client ι) (call : Call) (after : Client ι),
      ArenaSound before.heap → SumAdmits binOf request mmap before call →
      before.step api call = some after →
      ArenaSound after.heap ∧ before.heap.arenaCur ≤ after.heap.arenaCur := by
    intro before call after h hadmit hstep
    exact ((hpasses _ _ _ (Client.step_heap hstep)).break hsound h).1 hadmit.2
  have hreached : ∀ w, Runs.Reach (Client.step api) (SumAdmits binOf request mmap)
      (Client.initial ι) w → ArenaSound w.heap := by
    intro w hreach
    induction hreach with
    | start => exact arenaSound_initial ι
    | next _ hadmit hs ih => exact (hstep _ _ _ ih hadmit hs).1
  refine ⟨fun w hreach => (hreached w hreach).ordered, ?_, ?_⟩
  · intro w w' hreach hlater _
    have hboth : ArenaSound w'.heap ∧ w.heap.arenaCur ≤ w'.heap.arenaCur := by
      induction hlater with
      | start => exact ⟨hreached w hreach, Nat.le_refl _⟩
      | next _ hadmit hs ih =>
          obtain ⟨hafter, hle⟩ := hstep _ _ _ ih.1 hadmit hs
          exact ⟨hafter, Nat.le_trans ih.2 hle⟩
    exact hboth.2
  · intro w call w' hreach hallows hs
    obtain ⟨hkeeps, hbreaks⟩ :=
      (hpasses _ _ _ (Client.step_heap hs)).break hsound (hreached w hreach)
    constructor
    · intro hkept
      refine ⟨hallows, ?_⟩
      by_contra hharm
      exact hbreaks hharm hkept
    · rintro ⟨_, hsafe⟩
      obtain ⟨hafter, hle⟩ := hkeeps hsafe
      exact ⟨hafter.ordered, fun _ => hle⟩

omit [DecidableEq ι] in
/-- Where a function that leaves the arena returns. -/
theorem SameArena.of_some {s s₁ s' : Globals ι} {p q : Nat} (h : SameArena s s₁)
    (heq : some (s₁, p) = some (s', q)) : SameArena s s' := by
  obtain ⟨rfl, _⟩ := Prod.mk.inj (Option.some.inj heq)
  exact h

/-- `my_calloc` passes the product on, if it passes anything on. -/
theorem callocWith_passesOn {nmemb size p : Nat}
    (heq : callocWith (mallocWith binOf account mmap) s nmemb size = some (s', p))
    (hrequest : request s call = callocRequest nmemb size) :
    PassesOn binOf account mmap request s call s' := by
  cases hn : callocRequest nmemb size with
  | none =>
      rw [callocWith_none hn] at heq
      exact Or.inl ⟨hrequest.trans hn, SameArena.of_some (SameArena.refl s) heq⟩
  | some n =>
      rw [callocWith_some hn] at heq
      obtain ⟨⟨s₁, q⟩, hmalloc, hrest⟩ := Option.bind_eq_some_iff.mp heq
      refine Or.inr ⟨n, s₁, q, hrequest.trans hn, hmalloc, ?_⟩
      dsimp only at hrest
      split at hrest
      · exact SameArena.of_some (SameArena.refl s₁) hrest
      · exact SameArena.of_some (SameArena.of_mem_stat s₁ _ s₁.stat) hrest

theorem mallocWith_passesOn {size : Nat}
    (heq : (mallocWith binOf account mmap s size).map Prod.fst = some s')
    (hrequest : request s call = some size) :
    PassesOn binOf account mmap request s call s' := by
  obtain ⟨⟨s₁, p⟩, hmalloc, rfl⟩ := Option.map_eq_some_iff.mp heq
  exact Or.inr ⟨size, s₁, p, hrequest, hmalloc, SameArena.refl s₁⟩

end Runs

namespace Segregated

theorem myFree_sameArena (s : State) (ptr : Nat) : SameArena s (myFree s ptr) := by
  unfold myFree
  split
  · exact SameArena.refl s
  · dsimp only
    split
    · exact SameArena.refl s
    · exact (SameArena.of_mem_stat s _ _).trans (freelistPush_sameArena _ _ _)

theorem passesOn {mmap : Mmap} {s s' : State} {call : Call}
    (heq : Client.heapAfter (api mmap) s call = some s') :
    PassesOn sizeToBin liveAdd mmap (fun _ => request) s call s' := by
  cases call with
  | malloc size => exact mallocWith_passesOn heq rfl
  | calloc nmemb size =>
      obtain ⟨⟨s₁, p⟩, hcalloc, rfl⟩ := Option.map_eq_some_iff.mp heq
      exact callocWith_passesOn hcalloc rfl
  | free ptr => exact Or.inl ⟨rfl, Option.some.inj heq ▸ myFree_sameArena s ptr⟩
  | realloc ptr size =>
      obtain ⟨⟨s₁, p⟩, hrealloc, rfl⟩ := Option.map_eq_some_iff.mp heq
      change myRealloc mmap s ptr size = _ at hrealloc
      unfold myRealloc at hrealloc
      by_cases hptr : ptr = 0
      · rw [if_pos hptr] at hrealloc
        exact Or.inr ⟨size, s₁, p, by simp [request, hptr], hrealloc, SameArena.refl s₁⟩
      · rw [if_neg hptr] at hrealloc
        by_cases hsize : size = 0
        · rw [if_pos hsize] at hrealloc
          exact Or.inl ⟨by simp [request, hptr, hsize],
            SameArena.of_some (myFree_sameArena s ptr) hrealloc⟩
        · rw [if_neg hsize] at hrealloc
          obtain ⟨⟨s₂, q⟩, hmalloc, hrest⟩ := Option.bind_eq_some_iff.mp hrealloc
          refine Or.inr ⟨size, s₂, q, by simp [request, hsize], hmalloc, ?_⟩
          dsimp only at hrest
          split at hrest
          · exact SameArena.of_some (SameArena.refl s₂) hrest
          · exact SameArena.of_some
              ((SameArena.of_mem_stat s₂ _ s₂.stat).trans (myFree_sameArena _ ptr)) hrest
  | write addr byte =>
      exact Or.inl ⟨rfl, Option.some.inj heq ▸ SameArena.of_mem_stat s _ s.stat⟩
  | statReset => exact Or.inl ⟨rfl, Option.some.inj heq ▸ SameArena.of_mem_stat s s.mem _⟩

end Segregated

namespace FirstFit

theorem freelistRemove_sameArena {s s' : State} {header : Nat}
    (heq : freelistRemove s header = some s') : SameArena s s' := by
  unfold freelistRemove at heq
  split at heq
  · simp at heq
  · dsimp only at heq
    split at heq
    · exact Option.some.inj heq ▸ SameArena.of_mem_stat s s.mem _
    · exact Option.some.inj heq ▸ (SameArena.of_mem_stat s s.mem _).trans
        ((setLink_sameArena _ _ _ _).trans (subFreelistLen_sameArena _))

theorem mergeRight_sameArena {s s' : State} {header : Nat}
    (heq : mergeRight s header = some s') : SameArena s s' := by
  unfold mergeRight at heq
  dsimp only at heq
  split at heq
  · obtain ⟨s₁, hremove, hrest⟩ := Option.bind_eq_some_iff.mp heq
    exact Option.some.inj hrest ▸
      (freelistRemove_sameArena hremove).trans (SameArena.of_mem_stat s₁ _ s₁.stat)
  · exact Option.some.inj heq ▸ SameArena.refl s

theorem mergeLeft_sameArena {s s' : State} {header : Nat}
    (heq : mergeLeft s header = some s') : SameArena s s' := by
  unfold mergeLeft at heq
  dsimp only at heq
  split at heq
  · obtain ⟨s₁, hremove, hrest⟩ := Option.bind_eq_some_iff.mp heq
    exact Option.some.inj hrest ▸ (freelistRemove_sameArena hremove).trans
      ((SameArena.of_mem_stat s₁ _ s₁.stat).trans (freelistPush_sameArena _ _ _))
  · exact Option.some.inj heq ▸ freelistPush_sameArena s _ _

theorem myFree_sameArena {s s' : State} {ptr : Nat} (heq : myFree s ptr = some s') :
    SameArena s s' := by
  unfold myFree at heq
  split at heq
  · exact Option.some.inj heq ▸ SameArena.refl s
  · dsimp only at heq
    split at heq
    · exact Option.some.inj heq ▸ SameArena.refl s
    · obtain ⟨s₁, hright, hleft⟩ := Option.bind_eq_some_iff.mp heq
      exact (SameArena.of_mem_stat s _ s.stat).trans
        ((mergeRight_sameArena hright).trans (mergeLeft_sameArena hleft))

theorem growInPlace_sameArena {s s' : State} {ptr oldSize newSize rightHeader q : Nat}
    (heq : growInPlace s ptr oldSize newSize rightHeader = some (s', q)) :
    SameArena s s' := by
  unfold growInPlace at heq
  obtain ⟨s₁, hremove, hrest⟩ := Option.bind_eq_some_iff.mp heq
  have hsame := freelistRemove_sameArena hremove
  split at hrest
  · exact SameArena.of_some (hsame.trans ((SameArena.of_mem_stat s₁ _ s₁.stat).trans
      ((freelistPush_sameArena _ _ _).trans (SameArena.of_mem_stat _ _ _)))) hrest
  · exact SameArena.of_some (hsame.trans (SameArena.of_mem_stat s₁ _ s₁.stat)) hrest

theorem shrinkInPlace_sameArena (s : State) (ptr oldSize newSize : Nat) :
    SameArena s (shrinkInPlace s ptr oldSize newSize).1 := by
  unfold shrinkInPlace
  dsimp only
  split
  · exact (SameArena.of_mem_stat s _ s.stat).trans (freelistPush_sameArena _ _ _)
  · exact SameArena.refl s

/-- A resize reaches `my_malloc` only to move the block. -/
theorem resizeBlock_arena {mmap : Mmap} {s s' : State} {ptr newSize q : Nat}
    (heq : resizeBlock mmap s ptr newSize = some (s', q)) :
    (moves s ptr newSize = false ∧ SameArena s s') ∨
      (moves s ptr newSize = true ∧
        ∃ s₁ p, myMalloc mmap s newSize = some (s₁, p) ∧ SameArena s₁ s') := by
  unfold resizeBlock at heq
  unfold moves
  dsimp only at heq ⊢
  split at heq
  · next hgrow =>
      split at heq
      · next habsorb => exact Or.inl ⟨by simp [habsorb], growInPlace_sameArena heq⟩
      · next habsorb =>
          refine Or.inr ⟨by simp [hgrow, habsorb], ?_⟩
          unfold moveBlock at heq
          obtain ⟨⟨s₁, p⟩, hmalloc, hrest⟩ := Option.bind_eq_some_iff.mp heq
          refine ⟨s₁, p, hmalloc, ?_⟩
          dsimp only at hrest
          split at hrest
          · exact SameArena.of_some (SameArena.refl s₁) hrest
          · obtain ⟨s₂, hfree, hlast⟩ := Option.bind_eq_some_iff.mp hrest
            exact SameArena.of_some
              ((SameArena.of_mem_stat s₁ _ s₁.stat).trans (myFree_sameArena hfree)) hlast
  · next hfit =>
      exact Or.inl ⟨by simp [hfit],
        SameArena.of_some (shrinkInPlace_sameArena s ptr _ newSize) heq⟩

theorem passesOn {mmap : Mmap} {s s' : State} {call : Call}
    (heq : Client.heapAfter (api mmap) s call = some s') :
    PassesOn theList (fun _ stat => stat) mmap request s call s' := by
  cases call with
  | malloc size => exact mallocWith_passesOn heq rfl
  | calloc nmemb size =>
      obtain ⟨⟨s₁, p⟩, hcalloc, rfl⟩ := Option.map_eq_some_iff.mp heq
      exact callocWith_passesOn hcalloc rfl
  | free ptr => exact Or.inl ⟨rfl, myFree_sameArena heq⟩
  | realloc ptr size =>
      obtain ⟨⟨s₁, p⟩, hrealloc, rfl⟩ := Option.map_eq_some_iff.mp heq
      change myRealloc mmap s ptr size = _ at hrealloc
      unfold myRealloc at hrealloc
      by_cases hptr : ptr = 0
      · rw [if_pos hptr] at hrealloc
        exact Or.inr ⟨size, s₁, p, by simp [request, hptr], hrealloc, SameArena.refl s₁⟩
      · rw [if_neg hptr] at hrealloc
        by_cases hsize : size = 0
        · rw [if_pos hsize] at hrealloc
          obtain ⟨s₂, hfree, hlast⟩ := Option.bind_eq_some_iff.mp hrealloc
          exact Or.inl ⟨by simp [request, hptr, hsize],
            SameArena.of_some (myFree_sameArena hfree) hlast⟩
        · rw [if_neg hsize] at hrealloc
          rcases resizeBlock_arena hrealloc with ⟨hstays, hsame⟩ | ⟨hmoves, s₂, q, hmalloc, hsame⟩
          · exact Or.inl ⟨by simp [request, hptr, hsize, hstays], hsame⟩
          · exact Or.inr ⟨reallocSize size, s₂, q, by simp [request, hptr, hsize, hmoves],
              hmalloc, hsame⟩
  | write addr byte =>
      exact Or.inl ⟨rfl, Option.some.inj heq ▸ SameArena.of_mem_stat s _ s.stat⟩
  | statReset => exact Or.inl ⟨rfl, Option.some.inj heq ▸ SameArena.of_mem_stat s s.mem _⟩

end FirstFit

/-- In the runs of both allocators, with requests of any size, the break stays in
the region and never moves back as long as no sum wraps; and the first call whose
sum wraps moves it back. -/
theorem arena_break {mmap : Mmap} (hsound : mmap.Sound) :
    BreakHolds (Segregated.api mmap)
        (SumAdmits Segregated.sizeToBin (fun _ => Segregated.request) mmap) ∧
      BreakHolds (FirstFit.api mmap) (SumAdmits FirstFit.theList FirstFit.request mmap) :=
  ⟨breakHolds hsound fun _ _ _ => Segregated.passesOn,
    breakHolds hsound fun _ _ _ => FirstFit.passesOn⟩

theorem arena_break_example :
    (∃ w, Runs.run (Client.step (Segregated.api lowRegion)) (Client.initial _)
        [.malloc 100, .malloc (2 ^ 64 - 5000), .realloc 4112 40] = some w ∧
      w.heap.arenaBase = 4096 ∧ ArenaOrdered w.heap) ∧
    ∃ w, Runs.run (Client.step (FirstFit.api lowRegion)) (Client.initial _)
        [.malloc 100, .malloc (2 ^ 64 - 5000), .realloc 4112 (2 ^ 40)] = some w ∧
      w.heap.arenaBase = 4096 ∧ ArenaOrdered w.heap := by
  obtain ⟨hsegregated, hfirstFit⟩ := arena_break lowRegion_sound
  constructor
  · have hbase : (Runs.run (Client.step (Segregated.api lowRegion)) (Client.initial _)
        [.malloc 100, .malloc (2 ^ 64 - 5000), .realloc 4112 40]).map
        (fun w => w.heap.arenaBase) = some 4096 := by decide +kernel
    obtain ⟨w, hrun, hw⟩ := Option.map_eq_some_iff.mp hbase
    exact ⟨w, hrun, hw, hsegregated.ordered w (.of_run .start (by decide +kernel) hrun)⟩
  · have hbase : (Runs.run (Client.step (FirstFit.api lowRegion)) (Client.initial _)
        [.malloc 100, .malloc (2 ^ 64 - 5000), .realloc 4112 (2 ^ 40)]).map
        (fun w => w.heap.arenaBase) = some 4096 := by decide +kernel
    obtain ⟨w, hrun, hw⟩ := Option.map_eq_some_iff.mp hbase
    exact ⟨w, hrun, hw, hfirstFit.ordered w (.of_run .start (by decide +kernel) hrun)⟩

/-- After one block, a request of `2 ^ 64 - 40` bytes moves the break below the
base of the region. -/
theorem arena_break_fails : lowRegion.Sound ∧
    (∃ w, Runs.run (Client.step (Segregated.api lowRegion)) (Client.initial _)
        [.malloc 0, .malloc (2 ^ 64 - 40)] = some w ∧
      Runs.Reach (Client.step (Segregated.api lowRegion)) Client.Allows (Client.initial _) w ∧
      w.heap.arenaBase = 4096 ∧ w.heap.arenaCur = 4092 ∧ ¬ ArenaOrdered w.heap) ∧
    ∃ w, Runs.run (Client.step (FirstFit.api lowRegion)) (Client.initial _)
        [.malloc 0, .malloc (2 ^ 64 - 40)] = some w ∧
      Runs.Reach (Client.step (FirstFit.api lowRegion)) Client.Allows (Client.initial _) w ∧
      w.heap.arenaBase = 4096 ∧ w.heap.arenaCur = 4092 ∧ ¬ ArenaOrdered w.heap := by
  refine ⟨lowRegion_sound, ?_, ?_⟩
  · have hfacts : (Runs.run (Client.step (Segregated.api lowRegion)) (Client.initial _)
        [.malloc 0, .malloc (2 ^ 64 - 40)]).map
        (fun w => (w.heap.arenaBase, w.heap.arenaCur)) = some (4096, 4092) := by
      decide +kernel
    obtain ⟨w, hrun, hw⟩ := Option.map_eq_some_iff.mp hfacts
    obtain ⟨hbase, hcur⟩ := Prod.mk.inj hw
    refine ⟨w, hrun, .of_run .start (by decide +kernel) hrun, hbase, hcur, ?_⟩
    intro hordered
    have hlow := (hordered (by omega)).1
    omega
  · have hfacts : (Runs.run (Client.step (FirstFit.api lowRegion)) (Client.initial _)
        [.malloc 0, .malloc (2 ^ 64 - 40)]).map
        (fun w => (w.heap.arenaBase, w.heap.arenaCur)) = some (4096, 4092) := by
      decide +kernel
    obtain ⟨w, hrun, hw⟩ := Option.map_eq_some_iff.mp hfacts
    obtain ⟨hbase, hcur⟩ := Prod.mk.inj hw
    refine ⟨w, hrun, .of_run .start (by decide +kernel) hrun, hbase, hcur, ?_⟩
    intro hordered
    have hlow := (hordered (by omega)).1
    omega

end AllocSitter
