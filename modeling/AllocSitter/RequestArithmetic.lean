/-
Requests of any 64-bit size: when a block that `my_malloc` returns has room for
what was asked.  Tags have 32 bits, so a request above `2 ^ 32 - 24` bytes has to
be refused, and the code refuses it exactly when no sum on the way wraps around.
-/
import AllocSitter.ArenaBreak

namespace AllocSitter

open ByteMemory LinkedChain Tiling

variable {ι : Type}

/-- `my_malloc(size)` returns, and a pointer other than `NULL` heads a block with
room for `size` bytes that was not live before and is on no free list. -/
def MallocHonest (api : Api ι) (w : Client ι) (size : Nat) : Prop :=
  ∃ s' p, api.malloc w.heap size = some (s', p) ∧
    (p ≠ 0 → size + 8 ≤ tagSize (load s'.mem (ptrSub p 4) 4) ∧ ¬ w.Holds p ∧
      ∀ i nodes, Linked (nextFree s'.mem) 0 (s'.freeHead i) nodes → ptrSub p 4 ∉ nodes)

/-- `my_calloc(nmemb, size)` returns, and a pointer other than `NULL` heads a block
with room for the product. -/
def CallocHonest (api : Api ι) (w : Client ι) (nmemb size : Nat) : Prop :=
  ∃ s' p, api.calloc w.heap nmemb size = some (s', p) ∧
    (p ≠ 0 → nmemb * size + 8 ≤ tagSize (load s'.mem (ptrSub p 4) 4))

/-- There is no region, and the next two calls of `mmap` fail. -/
def NoRegion (mmap : Mmap) (s : Globals ι) : Prop :=
  s.arenaBase = 0 ∧ mmap s.mmapCalls = none ∧ mmap (s.mmapCalls + 1) = none

/-- The requests whose size the arithmetic of `my_malloc` keeps track of: those
that fit into a tag; larger ones that round without wrapping, where the sum with
the break does not wrap either; and those beyond, whose rounded size has wrapped
to 0 or 16, where there is not even room for that. -/
def Measured (binOf : Nat → ι) (mmap : Mmap) (s : Globals ι) (size : Nat) : Prop :=
  size + 24 ≤ 2 ^ 32 ∨
    (size + 24 ≤ 2 ^ 64 ∧ SumSafe mmap s (chunkNeed size)) ∨
    (2 ^ 64 < size + 24 ∧ NoRegion mmap s) ∨
    (2 ^ 64 ≤ size + 7 ∧ s.arenaBase ≠ 0 ∧ s.freeHead (binOf 16) = 0 ∧
      s.arenaEnd < s.arenaCur + 16 + ptrSub 12 s.arenaCur % 16)

/-- `arena_extend` refuses the request: the region exists and the sum, as it is
computed, lies beyond its end; or no region can be had. -/
def ArenaRefuses (mmap : Mmap) (s : Globals ι) (need : Nat) : Prop :=
  if s.arenaBase = 0 then
    match mmap s.mmapCalls with
    | some base => base + arenaSize < ptrAdd base (need + 12)
    | none =>
        match mmap (s.mmapCalls + 1) with
        | some base => base + arenaSize < ptrAdd base (need + 13)
        | none => True
  else need + ptrSub 12 s.arenaCur % 16 ≠ 0 ∧
    s.arenaEnd < ptrAdd s.arenaCur (need + ptrSub 12 s.arenaCur % 16)

section Outcome

variable {mmap : Mmap} {s s₁ s₂ s₃ : Globals ι} {need cur p hi : Nat}

theorem moveBreak_refuses {n : Nat} (hn : n ≠ 0) (hfull : s.arenaEnd < ptrAdd s.arenaCur n) :
    moveBreak s n = (s, mapFailed) := by
  unfold moveBreak
  rw [if_neg hn, if_pos hfull]

theorem moveBreak_grants {n : Nat} (h : ¬ (n ≠ 0 ∧ s.arenaEnd < ptrAdd s.arenaCur n)) :
    ∃ cur', moveBreak s n = ({ s with arenaCur := cur' }, s.arenaCur) := by
  unfold moveBreak
  by_cases hn : n = 0
  · rw [if_pos hn]
    exact ⟨s.arenaCur, rfl⟩
  · rw [if_neg hn, if_neg fun hfull => h ⟨hn, hfull⟩]
    exact ⟨_, rfl⟩

section Extends

variable (account : Nat → AllocStat → AllocStat)
  (hfirst : arenaExtend mmap s 0 = (s₁, cur))
  (hsecond : arenaExtend mmap s₁ (ptrAdd need (ptrSub 12 cur % 16)) = (s₂, p))
  (hthird : arenaExtend mmap s₂ 0 = (s₃, hi))

include hfirst hsecond hthird

theorem extendHeap_refused (hp : p = mapFailed) :
    (extendHeap account mmap s need).2 = 0 := by
  simp only [extendHeap, hfirst, hsecond, hthird, hp, ↓reduceIte]

theorem extendHeap_granted (hp : p ≠ mapFailed) :
    ∃ s', extendHeap account mmap s need =
        (s', ptrAdd (ptrAdd p (ptrSub 12 cur % 16)) 4) ∧
      s'.mem = setTags s₃.mem (ptrAdd p (ptrSub 12 cur % 16)) (need % 2 ^ 32 ||| 1) ∧
      s'.freeHead = s₃.freeHead ∧ s'.arenaBase = s₃.arenaBase := by
  simp only [extendHeap, hfirst, hsecond, hthird, hp, ↓reduceIte]
  by_cases hlo : s₃.heapLo = 0
  · rw [if_pos hlo]
    exact ⟨_, rfl, rfl, rfl, rfl⟩
  · rw [if_neg hlo]
    exact ⟨_, rfl, rfl, rfl, rfl⟩

end Extends

/-- The request meets a region with the globals `t` and the padding `pad`. -/
theorem extendHeap_at (account : Nat → AllocStat → AllocStat) {t : Globals ι} {pad : Nat}
    (hfirst : arenaExtend mmap s 0 = (s₁, cur)) (hpad : ptrSub 12 cur % 16 = pad)
    (hneed : need + 16 ≤ 2 ^ 64)
    (hsecond : arenaExtend mmap s₁ (need + pad) = moveBreak t (need + pad))
    (hbase : t.arenaBase ≠ 0) (hhigh : t.arenaCur + 4096 ≤ 2 ^ 64) :
    ((need + pad ≠ 0 ∧ t.arenaEnd < ptrAdd t.arenaCur (need + pad)) ∧
        (extendHeap account mmap s need).2 = 0) ∨
      (¬ (need + pad ≠ 0 ∧ t.arenaEnd < ptrAdd t.arenaCur (need + pad)) ∧
        ∃ s', extendHeap account mmap s need = (s', t.arenaCur + pad + 4) ∧
          s'.mem = setTags t.mem (t.arenaCur + pad) (need % 2 ^ 32 ||| 1) ∧
          s'.freeHead = t.freeHead) := by
  have hlt : pad < 16 := by
    rw [← hpad]
    exact Nat.mod_lt _ (by decide)
  have hsum : ptrAdd need (ptrSub 12 cur % 16) = need + pad := by
    rw [hpad]
    exact ptrAdd_of_lt (by omega)
  by_cases hrefuses : need + pad ≠ 0 ∧ t.arenaEnd < ptrAdd t.arenaCur (need + pad)
  · refine Or.inl ⟨hrefuses, ?_⟩
    rw [moveBreak_refuses hrefuses.1 hrefuses.2, ← hsum] at hsecond
    exact extendHeap_refused account hfirst hsecond (arenaExtend_zero hbase) rfl
  · refine Or.inr ⟨hrefuses, ?_⟩
    obtain ⟨cur', hgrants⟩ := moveBreak_grants hrefuses
    rw [hgrants, ← hsum] at hsecond
    have hne : t.arenaCur ≠ mapFailed := by
      unfold mapFailed
      omega
    have hthird : arenaExtend mmap { t with arenaCur := cur' } 0 =
        ({ t with arenaCur := cur' }, cur') := arenaExtend_zero hbase
    obtain ⟨s', heq, hmem, hhead, _⟩ := extendHeap_granted account hfirst hsecond hthird hne
    rw [hpad, ptrAdd_of_lt (by omega : t.arenaCur + pad < 2 ^ 64)] at heq hmem
    rw [ptrAdd_of_lt (by omega : t.arenaCur + pad + 4 < 2 ^ 64)] at heq
    exact ⟨s', heq, hmem, hhead⟩

/-- The arena has granted a block at `header`: it lies above the break, its tags
are written over the memory `m`, and no list has changed. -/
structure Granted (s : Globals ι) (need : Nat) (s' : Globals ι) (header : Nat)
    (m : Memory) : Prop where
  tags : s'.mem = setTags m header (need % 2 ^ 32 ||| 1)
  heads : s'.freeHead = s.freeHead
  above : s.arenaCur ≤ header
  inside : header + 16 < 2 ^ 64
  mapped : s.arenaBase ≠ 0 → m = s.mem ∧ header < s.arenaCur + 16

variable {shape : Globals ι → List Block → Prop} [LawfulShape shape] [DecidableEq ι]
  {binOf : Nat → ι} {L : Layout ι}

theorem RepresentsIn.cur_high (h : RepresentsIn shape binOf s L) :
    s.arenaCur + 4096 ≤ 2 ^ 64 := by
  by_cases hbase : s.arenaBase = 0
  · have hcur := h.room.idle hbase
    omega
  · obtain ⟨hpage, _, hlt, hend⟩ := h.room.region hbase
    have hcur := (h.room.top hbase).2
    unfold arenaSize at *
    omega

omit [DecidableEq ι] in
/-- The region is installed by one of the two calls of `arena_extend`, and the block goes
`pad` bytes behind its base. -/
theorem extendHeap_fresh (account : Nat → AllocStat → AllocStat) (hsound : mmap.Sound)
    (hbase : s.arenaBase = 0) (hcur : s.arenaCur = s.arenaBase) (hneed : need + 16 ≤ 2 ^ 64)
    {s₁ t : Globals ι} {k base cur pad : Nat} (hmap : mmap k = some base)
    (hfirst : arenaExtend mmap s 0 = (s₁, cur)) (hpad : ptrSub 12 cur % 16 = pad)
    (hsecond : arenaExtend mmap s₁ (need + pad) = moveBreak t (need + pad))
    (htbase : t.arenaBase = base) (htcur : t.arenaCur = base)
    (htend : t.arenaEnd = base + arenaSize) (hthead : t.freeHead = s.freeHead) (hpos : 0 < pad) :
    (base + arenaSize < ptrAdd base (need + pad) ∧ (extendHeap account mmap s need).2 = 0) ∨
      (¬ base + arenaSize < ptrAdd base (need + pad) ∧ ∃ s' header m,
        extendHeap account mmap s need = (s', header + 4) ∧ Granted s need s' header m) := by
  obtain ⟨_, hpage, hregion⟩ := hsound k base hmap
  have hlt : pad < 16 := by
    rw [← hpad]
    exact Nat.mod_lt _ (by decide)
  have hhigh : base + 4096 ≤ 2 ^ 64 := by
    unfold arenaSize at hregion
    omega
  rcases extendHeap_at account hfirst hpad hneed hsecond (by omega) (by omega) with
    ⟨hrefuses, hnull⟩ | ⟨hgrants, s', heq, hmem, hhead⟩
  · rw [htcur, htend] at hrefuses
    exact Or.inl ⟨hrefuses.2, hnull⟩
  · rw [htcur] at heq hmem
    rw [htcur, htend] at hgrants
    refine Or.inr ⟨fun hfull => hgrants ⟨by omega, hfull⟩, s', base + pad, _, heq,
      ⟨hmem, hhead.trans hthead, by omega, ?_, fun hne => absurd hbase hne⟩⟩
    unfold arenaSize at hregion
    omega

/-- What a request that misses the lists comes to, whatever its size: `NULL` when
the arena refuses it, and otherwise a block above all others with the lowest 32
bits of the size in its tags. -/
theorem extendHeap_outcome (account : Nat → AllocStat → AllocStat) (hsound : mmap.Sound)
    (h : RepresentsIn shape binOf s L) (hneed : need + 16 ≤ 2 ^ 64) :
    (ArenaRefuses mmap s need ∧ (extendHeap account mmap s need).2 = 0) ∨
      (¬ ArenaRefuses mmap s need ∧ ∃ s' header m,
        extendHeap account mmap s need = (s', header + 4) ∧ Granted s need s' header m) := by
  by_cases hbase : s.arenaBase = 0
  · have hcur : s.arenaCur = s.arenaBase := (h.room.idle hbase).trans hbase.symm
    cases hfirst : mmap s.mmapCalls with
    | some base =>
        obtain ⟨hmod, hpage, hregion⟩ := hsound _ _ hfirst
        have hmapped : base ≠ 0 := by omega
        have hext : arenaExtend mmap s 0 = (installArena s base, base) := by
          unfold arenaExtend
          rw [if_pos hbase, hfirst]
          rfl
        have hpad : ptrSub 12 base % 16 = 12 := by
          unfold ptrSub
          omega
        have hext' : arenaExtend mmap (installArena s base) (need + 12) =
            moveBreak (installArena s base) (need + 12) := by
          unfold arenaExtend
          rw [if_neg (show (installArena s base).arenaBase ≠ 0 from hmapped)]
        simp only [ArenaRefuses, hbase, hfirst, ↓reduceIte]
        exact extendHeap_fresh account hsound hbase hcur hneed hfirst hext hpad hext' rfl rfl
          (ptrAdd_of_lt hregion) rfl (by decide)
    | none =>
        let s₁ : Globals ι := { s with mmapCalls := s.mmapCalls + 1 }
        have hunmapped : s₁.arenaBase = 0 := hbase
        have hext : arenaExtend mmap s 0 = (s₁, mapFailed) := by
          unfold arenaExtend
          rw [if_pos hbase, hfirst]
        have hpad : ptrSub 12 mapFailed % 16 = 13 := by decide
        cases hsecond : mmap (s.mmapCalls + 1) with
        | some base =>
            obtain ⟨_, hpage, hregion⟩ := hsound _ _ hsecond
            have hext' : arenaExtend mmap s₁ (need + 13) =
                moveBreak (installArena s₁ base) (need + 13) := by
              have hcall : mmap s₁.mmapCalls = some base := hsecond
              unfold arenaExtend
              rw [if_pos hunmapped, hcall]
            simp only [ArenaRefuses, hbase, hfirst, hsecond, ↓reduceIte]
            exact extendHeap_fresh account hsound hbase hcur hneed hsecond hext hpad hext' rfl rfl
              (ptrAdd_of_lt hregion) rfl (by decide)
        | none =>
            refine Or.inl ⟨by simp only [ArenaRefuses, hbase, hfirst, hsecond, ↓reduceIte], ?_⟩
            have hext' : arenaExtend mmap s₁ (ptrAdd need (ptrSub 12 mapFailed % 16)) =
                ({ s₁ with mmapCalls := s₁.mmapCalls + 1 }, mapFailed) := by
              have hcall : mmap s₁.mmapCalls = none := hsecond
              unfold arenaExtend
              rw [if_pos hunmapped, hcall]
            exact extendHeap_refused account hext hext' rfl rfl
  · have hhigh := h.cur_high
    have hext : arenaExtend mmap s (need + ptrSub 12 s.arenaCur % 16) =
        moveBreak s (need + ptrSub 12 s.arenaCur % 16) := by
      unfold arenaExtend
      rw [if_neg hbase]
    have hlt := Nat.mod_lt (ptrSub 12 s.arenaCur) (show 0 < 16 by decide)
    simp only [ArenaRefuses, hbase, ↓reduceIte]
    rcases extendHeap_at account (arenaExtend_zero hbase) rfl hneed hext hbase hhigh with
      ⟨hrefuses, hnull⟩ | ⟨hgrants, s', heq, hmem, hhead⟩
    · exact Or.inl ⟨hrefuses, hnull⟩
    · exact Or.inr ⟨hgrants, s', _, _, heq, hmem, hhead, by omega, by omega,
        fun _ => ⟨rfl, by omega⟩⟩

/-- The tags of a granted block that fits into a tag: the header says so, and the
words of the blocks below the break are as before, also where the footer has
wrapped around the address space. -/
theorem Granted.small {s' : Globals ι} {header : Nat} {m : Memory}
    (h : RepresentsIn shape binOf s L) (hgranted : Granted s need s' header m) (hge : 16 ≤ need)
    (hmod : need % 16 = 0) (hsmall : need < 2 ^ 32) :
    tagSize (load s'.mem header 4) = need ∧
      ∀ b ∈ L.blocks, SameOn s.mem s'.mem b.addr b.size := by
  have htag : need % 2 ^ 32 ||| 1 = need + 1 := by
    rw [Nat.mod_eq_of_lt hsmall, or_one_of_even (by omega)]
  have hword : (need + 1) % 2 ^ 32 = need + 1 := Nat.mod_eq_of_lt (by omega)
  have hsize : tagSize (need + 1) = need := tagSize_add hmod (by decide)
  have hinside := hgranted.inside
  have habove := hgranted.above
  generalize hfoot : ptrSub (ptrAdd header need) 4 = foot
  have hplace : foot = header + need - 4 ∨ foot + 2 ^ 64 = header + need - 4 := by
    rw [← hfoot]
    unfold ptrSub ptrAdd
    omega
  have hmem : s'.mem = store (store m header 4 (need + 1)) foot 4 (need + 1) := by
    rw [hgranted.tags, htag]
    simp only [setTags, hword, hsize, hfoot]
  constructor
  · rw [hmem, load_store_of_disjoint _ _ (by omega), load_store_same]
    rw [show (256 : Nat) ^ 4 = 2 ^ 32 from rfl, hword, hsize]
  · intro b hb
    have hbase := h.room.base_ne_zero (List.ne_nil_of_mem hb)
    obtain ⟨rfl, hnear⟩ := hgranted.mapped hbase
    obtain ⟨hlow, hhigh, _, _, _⟩ := h.room.bounds hb
    obtain ⟨_, hpage, _, hend⟩ := h.room.region hbase
    have hcur := (h.room.top hbase).2
    have hge' := b.size_ge
    unfold arenaSize at hend
    rw [hmem]
    intro x hlo hhi
    rw [store_sameOutside _ foot 4 _ x (by omega), store_sameOutside _ header 4 _ x (by omega)]

/-- A list whose blocks keep their bytes is the list it was. -/
theorem RepresentsIn.lists_kept {s' : Globals ι} (h : RepresentsIn shape binOf s L)
    (hheads : s'.freeHead = s.freeHead)
    (hkept : ∀ b ∈ L.blocks, SameOn s.mem s'.mem b.addr b.size) (i : ι) :
    Linked (nextFree s'.mem) 0 (s'.freeHead i) (L.chains i) := by
  rw [hheads]
  apply (h.threaded.linked i).congr
  intro a ha
  obtain ⟨b, hb, rfl⟩ := List.mem_map.mp ha
  have hrow := (h.binned.mem_iff.mp hb).1
  obtain ⟨_, hhigh, _, hcur, _⟩ := h.room.bounds hrow
  have hge := b.size_ge
  unfold nextFree
  rw [ptrAdd_of_lt (by omega)]
  apply load_congr
  exact (hkept b hrow).mono (show b.addr ≤ b.addr + 4 by omega) (by omega)

omit [LawfulShape shape] in
/-- A rounded size that has wrapped is below what any listed block has. -/
theorem RepresentsIn.fits_wrapped (h : RepresentsIn shape binOf s L) {i : ι} {b : Block}
    (hb : b ∈ L.lists i) (hneed : need = 2 ^ 64 - 16 ∨ need = 0 ∨ need = 16) :
    fits s.mem need b.addr = true := by
  have hrow := (h.binned.mem_iff.mp hb).1
  have htag := (h.threaded.tagged b hrow).tagSize_head
  have hge := b.size_ge
  simp only [fits, htag, Bool.or_eq_true, decide_eq_true_eq]
  rcases hneed with rfl | rfl | rfl
  · exact Or.inl (by unfold ptrAdd; omega)
  · exact Or.inl hge
  · exact Or.inr hge

omit [LawfulShape shape] in
theorem RepresentsIn.head_eq_zero (h : RepresentsIn shape binOf s L) {i : ι} :
    s.freeHead i = 0 ↔ L.lists i = [] := by
  have hlinked := h.threaded.linked i
  unfold Layout.chains at hlinked
  cases hlist : L.lists i with
  | nil =>
      rw [hlist] at hlinked
      exact iff_of_true (linked_nil.mp hlinked) rfl
  | cons b rest =>
      rw [hlist, List.map_cons, linked_cons] at hlinked
      refine iff_of_false ?_ (by simp)
      rw [hlinked.1]
      exact hlinked.2.1

end Outcome

/-- The rounded size by range: as meant, at the last multiple of 16 that still
holds it, and wrapped. -/
theorem chunkNeed_cases {size : Nat} (hsize : size < 2 ^ 64) (hbig : 2 ^ 32 < size + 24) :
    (size + 40 ≤ 2 ^ 64 ∧ 2 ^ 32 ≤ chunkNeed size ∧ chunkNeed size + 16 < 2 ^ 64) ∨
      (2 ^ 64 < size + 40 ∧ size + 24 ≤ 2 ^ 64 ∧ chunkNeed size = 2 ^ 64 - 16) ∨
      (2 ^ 64 < size + 24 ∧ size + 7 < 2 ^ 64 ∧ chunkNeed size = 0) ∨
      (2 ^ 64 ≤ size + 7 ∧ chunkNeed size = 16) := by
  unfold chunkNeed tagSize
  omega

section Malloc

variable [DecidableEq ι] {binOf : Nat → ι} {account : Nat → AllocStat → AllocStat}
  {mmap : Mmap} {s : Globals ι} {L : Layout ι} {size : Nat}

/-- A large request that misses the lists is refused exactly when its size has
been kept track of. -/
theorem RepresentsIn.refuses_iff (hsound : mmap.Sound) (h : Represents binOf s L)
    (hsize : size < 2 ^ 64) (hbig : 2 ^ 32 < size + 24)
    (hmiss : ∀ b ∈ L.lists (binOf (chunkNeed size)), fits s.mem (chunkNeed size) b.addr = false) :
    ArenaRefuses mmap s (chunkNeed size) ↔ Measured binOf mmap s size := by
  have hranges := chunkNeed_cases hsize hbig
  have hle := chunkNeed_le size
  unfold ArenaRefuses Measured SumSafe NoRegion
  by_cases hbase : s.arenaBase = 0
  · simp only [hbase, ↓reduceIte, true_and, ne_eq, not_true_eq_false, false_and, and_false,
      or_false]
    cases hfirst : mmap s.mmapCalls with
    | some base =>
        obtain ⟨_, hpage, hregion⟩ := hsound _ _ hfirst
        simp only [reduceCtorEq, false_and, and_false, or_false]
        unfold ptrAdd arenaSize at *
        omega
    | none =>
        cases hsecond : mmap (s.mmapCalls + 1) with
        | some base =>
            obtain ⟨_, hpage, hregion⟩ := hsound _ _ hsecond
            simp only [reduceCtorEq, and_false, or_false]
            unfold ptrAdd arenaSize at *
            omega
        | none =>
            simp only [and_self, and_true, true_iff]
            omega
  · obtain ⟨_, hpage, hregion, hend⟩ := h.arena.region hbase
    have hcur := (h.arena.top hbase).2
    have hpad := h.arena.padding_eq hbase
    have hrow : (padding L = 12 ∧ s.arenaCur = s.arenaBase) ∨
        (padding L = 0 ∧ s.arenaBase < s.arenaCur) := by
      by_cases hnil : L.blocks = []
      · exact Or.inl ⟨by simp [padding, hnil], (h.arena.untouched hnil).2⟩
      · have hlo := (h.arena.tiles hnil).1
        have hle' := (h.arena.tiles hnil).2.le
        exact Or.inr ⟨by simp [padding, hnil], by omega⟩
    have hhead : (2 ^ 64 ≤ size + 7 → s.freeHead (binOf 16) = 0) := by
      intro hwrapped
      have hneed : chunkNeed size = 16 := by omega
      rw [hneed] at hmiss
      rw [h.head_eq_zero]
      apply List.eq_nil_iff_forall_not_mem.mpr
      intro b hb
      have hfits := h.fits_wrapped hb (Or.inr (Or.inr rfl))
      rw [hmiss b hb] at hfits
      simp at hfits
    simp only [hbase, ↓reduceIte, hpad, false_and, and_false, false_or, ne_eq,
      not_false_eq_true, true_and]
    generalize padding L = pad at *
    unfold ptrAdd arenaSize at *
    by_cases hwrapped : 2 ^ 64 ≤ size + 7
    · simp only [hhead hwrapped, true_and]
      omega
    · omega

/-- A large request stops at a listed block only after its size has been lost. -/
theorem RepresentsIn.not_measured (h : Represents binOf s L) (mmap : Mmap)
    (hsize : size < 2 ^ 64) (hbig : 2 ^ 32 < size + 24) {c : Block}
    (hc : c ∈ L.lists (binOf (chunkNeed size)))
    (hfits : fits s.mem (chunkNeed size) c.addr = true) : ¬ Measured binOf mmap s size := by
  have hrow := (h.binned.mem_iff.mp hc).1
  have hbase := h.room.base_ne_zero (List.ne_nil_of_mem hrow)
  obtain ⟨_, hpage, _⟩ := h.arena.region hbase
  obtain ⟨hlow, hhigh, _⟩ := h.room.bounds hrow
  have hword := load_lt s.mem c.addr 4
  have htag := tagSize_le (load s.mem c.addr 4)
  rw [(h.threaded.tagged c hrow).tagSize_head] at htag
  unfold Measured SumSafe NoRegion
  simp only [hbase, ↓reduceIte, false_and, and_false, false_or]
  rcases chunkNeed_cases hsize hbig with ⟨_, hlarge, hneed⟩ | ⟨_, _, hneed⟩ | hwrapped | hwrapped
  · rw [h.fits_iff hneed hc] at hfits
    have hle := of_decide_eq_true hfits
    omega
  · rw [hneed]
    omega
  · omega
  · rw [hwrapped.2] at hc
    have hhead : s.freeHead (binOf 16) ≠ 0 := by
      rw [Ne, h.head_eq_zero]
      exact List.ne_nil_of_mem hc
    simp only [hhead, false_and, and_false, or_false]
    omega

/-- What `my_malloc` comes to, whatever the size: the payload of a listed block
that passes the test of the scan, or what the arena makes of the request. -/
theorem mallocWith_cases (account : Nat → AllocStat → AllocStat) (mmap : Mmap)
    {shape : Globals ι → List Block → Prop} [LawfulShape shape]
    (h : RepresentsIn shape binOf s L) (size : Nat) :
    (∃ c ∈ L.lists (binOf (chunkNeed size)), fits s.mem (chunkNeed size) c.addr = true ∧
        ¬ ScanMisses binOf s size ∧
        ∃ s', mallocWith binOf account mmap s size = some (s', c.addr + 4)) ∨
      ((∀ b ∈ L.lists (binOf (chunkNeed size)), fits s.mem (chunkNeed size) b.addr = false) ∧
        ScanMisses binOf s size ∧
        mallocWith binOf account mmap s size = some (extendHeap account mmap
          (addScanSteps s (L.lists (binOf (chunkNeed size))).length) (chunkNeed size))) := by
  rcases h.scan_cases (chunkNeed size) with
    ⟨front, c, back, hlist, _, hfits, hwalk⟩ | ⟨hmiss, hwalk⟩
  · have hc : c ∈ L.lists (binOf (chunkNeed size)) := by simp [hlist]
    obtain ⟨hlow, hhigh, _, hcur, _⟩ := h.room.bounds (h.binned.mem_iff.mp hc).1
    have hge := c.size_ge
    have hpayload : ptrAdd c.addr 4 = c.addr + 4 := ptrAdd_of_lt (by omega)
    have hhead := (h.addScanSteps (front.length + 1)).head_eq hlist
    refine Or.inl ⟨c, hc, hfits, by simp [ScanMisses, hwalk], ?_⟩
    by_cases hsplit : ptrAdd (chunkNeed size) 16 ≤
        tagSize (load (addScanSteps s (front.length + 1)).mem c.addr 4)
    · simp only [mallocWith, hwalk, hhead, if_pos hsplit, splitBlock, hpayload]
      exact ⟨_, rfl⟩
    · simp only [mallocWith, hwalk, hhead, if_neg hsplit, wholeBlock, hpayload]
      exact ⟨_, rfl⟩
  · exact Or.inr ⟨hmiss, ⟨_, hwalk⟩, by simp only [mallocWith, hwalk]⟩

/-- A request that does not fit into a tag returns `NULL` exactly when its size
has been kept track of. -/
theorem mallocWith_null_iff (account : Nat → AllocStat → AllocStat) (hsound : mmap.Sound)
    (h : Represents binOf s L) (hsize : size < 2 ^ 64) (hbig : 2 ^ 32 < size + 24) :
    ∃ s' p, mallocWith binOf account mmap s size = some (s', p) ∧
      (p = 0 ↔ Measured binOf mmap s size) := by
  rcases mallocWith_cases account mmap h size with ⟨c, hc, hfits, _, s', heq⟩ | ⟨hmiss, _, hmalloc⟩
  · exact ⟨s', _, heq, iff_of_false (by omega) (h.not_measured mmap hsize hbig hc hfits)⟩
  · have h₁ := h.addScanSteps (L.lists (binOf (chunkNeed size))).length
    have hiff := h.refuses_iff hsound hsize hbig hmiss
    rcases extendHeap_outcome account hsound h₁ (chunkNeed_le size) with
      ⟨hrefuses, hnull⟩ | ⟨hgrants, s', header, m, heq, _⟩
    · exact ⟨_, _, hmalloc, iff_of_true hnull (hiff.mp hrefuses)⟩
    · rw [heq] at hmalloc
      exact ⟨_, _, hmalloc, iff_of_false (by omega) fun hmeasured =>
        hgrants (hiff.mpr hmeasured)⟩

/-- What is said of the block at `p` in the state `s'`, with the abstract heap as
it was before the call. -/
structure FreshBlock (L : Layout ι) (size : Nat) (s' : Globals ι) (p : Nat) : Prop where
  header : ptrSub p 4 + 4 = p
  room : size + 8 ≤ tagSize (load s'.mem (ptrSub p 4) 4)
  unused : ∀ b ∈ Layout.usedBlocks L.blocks, b.payload ≠ p
  unlisted : ∀ i nodes, Linked (nextFree s'.mem) 0 (s'.freeHead i) nodes → ptrSub p 4 ∉ nodes

/-- A block that has come into use on a represented heap. -/
theorem RepresentsIn.fresh {s' : Globals ι} {L' : Layout ι} {u : Block}
    (hrep : Represents binOf s' L')
    (hperm : (Layout.usedBlocks L'.blocks).Perm (u :: Layout.usedBlocks L.blocks))
    (hfit : size + 8 ≤ u.size) : FreshBlock L size s' u.payload := by
  have hu : u ∈ Layout.usedBlocks L'.blocks := hperm.mem_iff.mpr List.mem_cons_self
  obtain ⟨hrow, hused⟩ := Layout.mem_usedBlocks.mp hu
  have hheader := hrep.header_eq hrow
  refine ⟨by rw [hheader]; rfl, ?_, ?_, ?_⟩
  · rw [hheader, (hrep.threaded.tagged u hrow).tagSize_head]
    exact hfit
  · intro b hb heq
    have hnodup := hrep.payload_nodup
    rw [(hperm.map Block.payload).nodup_iff, List.map_cons, List.nodup_cons] at hnodup
    exact hnodup.1 (heq ▸ List.mem_map_of_mem hb)
  · intro i nodes hlinked
    rw [hheader, hlinked.unique (hrep.threaded.linked i)]
    exact hrep.used_off_lists hrow hused i

/-- A block that the arena has granted, whether safely or not. -/
theorem Granted.fresh {s' : Globals ι} {header : Nat} {m : Memory}
    (h : Represents binOf s L) (hgranted : Granted s (chunkNeed size) s' header m)
    (hsmall : size + 24 ≤ 2 ^ 32) : FreshBlock L size s' (header + 4) := by
  obtain ⟨hge, hmod, hfit, hle, _⟩ := chunkNeed_bounds (by omega : size + 40 ≤ 2 ^ 64)
  have hneed : chunkNeed size < 2 ^ 32 := by
    unfold chunkNeed tagSize
    omega
  obtain ⟨htag, hkept⟩ := hgranted.small h hge hmod hneed
  have hinside := hgranted.inside
  have habove := hgranted.above
  have hheader : ptrSub (header + 4) 4 = header := by
    rw [ptrSub_of_le (by omega) (by omega), Nat.add_sub_cancel]
  refine ⟨by rw [hheader], by rw [hheader, htag]; exact hfit, ?_, ?_⟩
  · intro b hb heq
    obtain ⟨_, _, hhigh, _, _⟩ := h.used_bounds hb
    have hsize := b.size_ge
    unfold Block.payload at heq
    omega
  · intro i nodes hlinked hmem
    rw [hheader, hlinked.unique (h.lists_kept hgranted.heads hkept i)] at hmem
    obtain ⟨b, hb, heq⟩ := List.mem_map.mp hmem
    obtain ⟨_, hhigh, _⟩ := h.room.bounds (h.binned.mem_iff.mp hb).1
    have hsize := b.size_ge
    omega

/-- A request that fits into a tag gets a block with room for it, if any. -/
theorem mallocWith_fresh (haccount : ∀ n stat, (account n stat).freelistLen = stat.freelistLen)
    (hsound : mmap.Sound) (h : Represents binOf s L) (hsmall : size + 24 ≤ 2 ^ 32) :
    ∃ s' p, mallocWith binOf account mmap s size = some (s', p) ∧
      (p ≠ 0 → FreshBlock L size s' p) := by
  have hsize : size + 40 ≤ 2 ^ 64 := by omega
  obtain ⟨_, _, hfit, _, hneed⟩ := chunkNeed_bounds hsize
  rcases h.scan_cases (chunkNeed size) with
    ⟨front, c, back, hlist, hfront, hfits, _⟩ | ⟨_, hwalk⟩
  · have hsmaller : ∀ b ∈ front, b.size < chunkNeed size := by
      intro b hb
      have hmiss := hfront b hb
      rw [h.fits_iff hneed (i := binOf (chunkNeed size)) (by simp [hlist, hb])] at hmiss
      exact Nat.lt_of_not_le (of_decide_eq_false hmiss)
    have hlarger : chunkNeed size ≤ c.size := by
      rw [h.fits_iff hneed (i := binOf (chunkNeed size)) (by simp [hlist])] at hfits
      exact of_decide_eq_true hfits
    obtain ⟨s', L', heq, hcase, hrep, _⟩ :=
      mallocWith_found haccount h hsize hlist hsmaller hlarger
    refine ⟨s', _, heq, fun hp => ?_⟩
    rcases h.allocation_cases (hcase.effect h.lists_free hfit) with
      ⟨hnull, _⟩ | ⟨u, hpu, hperm, hroom⟩
    · exact absurd hnull hp
    · rw [hpu]
      exact hrep.fresh hperm hroom
  · have hmalloc : mallocWith binOf account mmap s size = some (extendHeap account mmap
        (addScanSteps s (L.lists (binOf (chunkNeed size))).length) (chunkNeed size)) := by
      simp only [mallocWith, hwalk]
    have h₁ := h.addScanSteps (L.lists (binOf (chunkNeed size))).length
    rcases extendHeap_outcome account hsound h₁ (chunkNeed_le size) with
      ⟨_, hnull⟩ | ⟨_, s', header, m, heq, hgranted⟩
    · exact ⟨_, _, hmalloc, fun hp => absurd hnull hp⟩
    · rw [heq] at hmalloc
      exact ⟨_, _, hmalloc, fun _ => hgranted.fresh h₁ hsmall⟩

end Malloc

/-- No tag says more than 32 bits can. -/
theorem tagSize_load_lt (m : Memory) (a : Nat) : tagSize (load m a 4) + 16 ≤ 2 ^ 32 := by
  have hlt : load m a 4 < 2 ^ 32 := load_lt m a 4
  unfold tagSize
  omega

section Honest

variable [DecidableEq ι] {binOf : Nat → ι} {account : Nat → AllocStat → AllocStat}
  {mmap : Mmap} {api : Api ι} {w : Client ι}
  (haccount : ∀ n stat, (account n stat).freelistLen = stat.freelistLen)
  (hsound : mmap.Sound) (hinv : Inv binOf w)

include haccount hsound hinv

/-- `my_malloc` is honest about a request exactly when it has kept track of its
size. -/
theorem mallocHonest_iff (hmalloc : api.malloc = mallocWith binOf account mmap) {size : Nat}
    (hsize : size < 2 ^ 64) :
    MallocHonest api w size ↔ Measured binOf mmap w.heap size := by
  obtain ⟨L, h, howns⟩ := hinv
  unfold MallocHonest
  rw [hmalloc]
  by_cases hsmall : size + 24 ≤ 2 ^ 32
  · refine iff_of_true ?_ (Or.inl hsmall)
    obtain ⟨s', p, heq, hfresh⟩ := mallocWith_fresh haccount hsound h hsmall
    refine ⟨s', p, heq, fun hp => ?_⟩
    refine ⟨(hfresh hp).room, ?_, (hfresh hp).unlisted⟩
    rintro ⟨n, hmem⟩
    obtain ⟨b, hb, hptr, _⟩ := howns.block_of_mem hmem
    exact (hfresh hp).unused b hb hptr.symm
  · obtain ⟨s', p, heq, hiff⟩ := mallocWith_null_iff account hsound h hsize (by omega)
    rw [← hiff]
    constructor
    · rintro ⟨s'', p', heq', hroom⟩
      rw [heq] at heq'
      obtain ⟨rfl, rfl⟩ := Prod.mk.inj (Option.some.inj heq')
      by_contra hp
      have hbound := tagSize_load_lt s'.mem (ptrSub p 4)
      have hclaimed := (hroom hp).1
      omega
    · exact fun hp => ⟨s', p, heq, fun hne => absurd hp hne⟩

/-- The same for `my_calloc`, whose guard leaves only true products. -/
theorem callocHonest_iff (hcalloc : api.calloc = callocWith (mallocWith binOf account mmap))
    (nmemb size : Nat) :
    CallocHonest api w nmemb size ↔
      ∀ n, callocRequest nmemb size = some n → Measured binOf mmap w.heap n := by
  obtain ⟨L, h, _⟩ := hinv
  unfold CallocHonest
  rw [hcalloc]
  cases hrequest : callocRequest nmemb size with
  | none =>
      refine iff_of_true ⟨w.heap, 0, callocWith_none hrequest, fun hp => absurd rfl hp⟩ ?_
      intro n hn
      simp at hn
  | some n =>
      obtain ⟨rfl, hlt⟩ := callocRequest_eq hrequest
      rw [callocWith_some hrequest]
      simp only [Option.some.injEq, forall_eq']
      by_cases hsmall : nmemb * size + 24 ≤ 2 ^ 32
      · refine iff_of_true ?_ (Or.inl hsmall)
        obtain ⟨s', p, heq, hfresh⟩ := mallocWith_fresh haccount hsound h hsmall
        rw [heq, Option.bind_some]
        by_cases hp : p = 0
        · exact ⟨s', p, if_pos hp, fun hne => absurd hp hne⟩
        · refine ⟨_, p, if_neg hp, fun _ => ?_⟩
          -- The fill starts behind the header.
          have hheader := (hfresh hp).header
          have hfill : load (fill s'.mem p (nmemb * size) 0) (ptrSub p 4) 4 =
              load s'.mem (ptrSub p 4) 4 :=
            (fill_sameOutside s'.mem p (nmemb * size) 0).load_eq (by omega)
          rw [hfill]
          exact (hfresh hp).room
      · obtain ⟨s', p, heq, hiff⟩ := mallocWith_null_iff account hsound h hlt (by omega)
        rw [← hiff, heq, Option.bind_some]
        by_cases hp : p = 0
        · exact iff_of_true ⟨s', p, if_pos hp, fun hne => absurd hp hne⟩ hp
        · refine iff_of_false ?_ hp
          rintro ⟨s'', p', heq', hroom⟩
          rw [if_neg hp] at heq'
          obtain ⟨rfl, rfl⟩ := Prod.mk.inj (Option.some.inj heq')
          have hbound := tagSize_load_lt (fill s'.mem p (nmemb * size) 0) (ptrSub p 4)
          have hclaimed : nmemb * size + 8 ≤
            tagSize (load (fill s'.mem p (nmemb * size) 0) (ptrSub p 4) 4) := hroom hp
          omega

omit haccount hsound in
/-- The requests that leave the heap well formed are among those. -/
theorem RequestSafe.measured {n : Nat} (hn : n + 40 ≤ 2 ^ 64)
    (hsafe : RequestSafe binOf mmap w.heap n) : Measured binOf mmap w.heap n := by
  obtain ⟨L, h, _⟩ := hinv
  by_cases hsmall : n + 24 ≤ 2 ^ 32
  · exact Or.inl hsmall
  · refine Or.inr (Or.inl ⟨by omega, ?_⟩)
    obtain ⟨_, _, hfit, _⟩ := chunkNeed_bounds hn
    have hmiss : ∀ b ∈ L.lists (binOf (chunkNeed n)), b.size < chunkNeed n := by
      intro b hb
      have hbound := tagSize_load_lt w.heap.mem b.addr
      rw [(h.threaded.tagged b (h.binned.mem_iff.mp hb).1).tagSize_head] at hbound
      omega
    have harena := hsafe ⟨_, h.scan_misses hn hmiss⟩
    unfold ArenaSafe at harena
    unfold SumSafe
    split
    · next hbase =>
        rw [if_pos hbase] at harena
        split
        · next base hfirst =>
            rw [hfirst] at harena
            exact harena
        · next hfirst =>
            rw [hfirst] at harena
            dsimp only at harena
            split
            · next base hsecond =>
                rw [hsecond] at harena
                exact harena.2
            · trivial
    · next hbase =>
        rw [if_neg hbase] at harena
        exact harena

end Honest

/-- What is said of every request in a state `w`: `my_malloc` and `my_calloc` are
honest about it exactly when its size is kept track of, which it is for every
request that leaves the heap well formed. -/
structure RequestsHonest [DecidableEq ι] (binOf : Nat → ι) (mmap : Mmap) (api : Api ι)
    (w : Client ι) : Prop where
  malloc : ∀ size < 2 ^ 64, MallocHonest api w size ↔ Measured binOf mmap w.heap size
  calloc : ∀ nmemb < 2 ^ 64, ∀ size < 2 ^ 64, CallocHonest api w nmemb size ↔
    ∀ n, callocRequest nmemb size = some n → Measured binOf mmap w.heap n
  safe : ∀ n, n + 40 ≤ 2 ^ 64 → RequestSafe binOf mmap w.heap n → Measured binOf mmap w.heap n

theorem requestsHonest [DecidableEq ι] {binOf : Nat → ι}
    {account : Nat → AllocStat → AllocStat} {mmap : Mmap} {api : Api ι}
    {ok : Globals ι → Call → Prop} {w : Client ι}
    (haccount : ∀ n stat, (account n stat).freelistLen = stat.freelistLen)
    (hsound : mmap.Sound) (hcontract : Contract binOf api ok)
    (hmalloc : api.malloc = mallocWith binOf account mmap)
    (hcalloc : api.calloc = callocWith (mallocWith binOf account mmap))
    (hreach : Runs.Reach (Client.step api) (fun w call => w.Allows call ∧ ok w.heap call)
      (Client.initial ι) w) : RequestsHonest binOf mmap api w := by
  have hinv := hcontract.invariant (fun _ _ hadmits => hadmits) hreach
  refine ⟨fun size hsize => ?_, fun nmemb _ size _ => ?_, fun n hn hsafe => ?_⟩
  · exact mallocHonest_iff haccount hsound hinv hmalloc hsize
  · exact callocHonest_iff haccount hsound hinv hcalloc nmemb size
  · exact RequestSafe.measured hinv hn hsafe

/-- In every state that safe calls lead to, for both allocators and requests of
every size. -/
theorem request_size_arithmetic {mmap : Mmap} (hsound : mmap.Sound) :
    (∀ w, Runs.Reach (Client.step (Segregated.api mmap))
        (fun w call => w.Allows call ∧ Segregated.Safe mmap w.heap call) (Client.initial _) w →
      RequestsHonest Segregated.sizeToBin mmap (Segregated.api mmap) w) ∧
    ∀ w, Runs.Reach (Client.step (FirstFit.api mmap))
        (fun w call => w.Allows call ∧ FirstFit.Safe mmap w.heap call) (Client.initial _) w →
      RequestsHonest FirstFit.theList mmap (FirstFit.api mmap) w :=
  ⟨fun _ => requestsHonest Segregated.liveAdd_freelistLen hsound (Segregated.contract hsound)
      rfl rfl,
    fun _ => requestsHonest (fun _ _ => rfl) hsound (FirstFit.contract hsound) rfl rfl⟩

/-- One allocation, and then a request for 5 GiB, which is refused. -/
theorem request_size_arithmetic_example :
    (∃ w, Runs.run (Client.step (Segregated.api lowRegion)) (Client.initial _)
        [.malloc 100] = some w ∧ MallocHonest (Segregated.api lowRegion) w (5 * 2 ^ 30)) ∧
    ∃ w, Runs.run (Client.step (FirstFit.api lowRegion)) (Client.initial _)
        [.malloc 100] = some w ∧ MallocHonest (FirstFit.api lowRegion) w (5 * 2 ^ 30) := by
  obtain ⟨hsegregated, hfirstFit⟩ := request_size_arithmetic lowRegion_sound
  constructor
  · have hsum : (Runs.run (Client.step (Segregated.api lowRegion)) (Client.initial _)
        [.malloc 100]).map
        (fun w => decide (SumSafe lowRegion w.heap (chunkNeed (5 * 2 ^ 30)))) = some true := by
      decide +kernel
    obtain ⟨w, hrun, hw⟩ := Option.map_eq_some_iff.mp hsum
    have hreach : Runs.Reach (Client.step (Segregated.api lowRegion))
        (Segregated.Admits lowRegion) (Client.initial _) w :=
      .of_run .start (by decide +kernel) hrun
    refine ⟨w, hrun, ?_⟩
    rw [(hsegregated w (hreach.mono fun _ _ hadmits => hadmits.safe)).malloc _ (by decide)]
    exact Or.inr (Or.inl ⟨by decide, of_decide_eq_true hw⟩)
  · have hsum : (Runs.run (Client.step (FirstFit.api lowRegion)) (Client.initial _)
        [.malloc 100]).map
        (fun w => decide (SumSafe lowRegion w.heap (chunkNeed (5 * 2 ^ 30)))) = some true := by
      decide +kernel
    obtain ⟨w, hrun, hw⟩ := Option.map_eq_some_iff.mp hsum
    have hreach : Runs.Reach (Client.step (FirstFit.api lowRegion))
        (FirstFit.Admits lowRegion) (Client.initial _) w :=
      .of_run .start (by decide +kernel) hrun
    refine ⟨w, hrun, ?_⟩
    rw [(hfirstFit w (hreach.mono fun _ _ hadmits => hadmits.safe)).malloc _ (by decide)]
    exact Or.inr (Or.inl ⟨by decide, of_decide_eq_true hw⟩)

/-- A call that has returned a block of 16 bytes has no room for more than 8. -/
theorem no_room (size : Nat) {result : Option (Globals ι × Nat)}
    (hfacts : result.map (fun r => (r.2, tagSize (load r.1.mem (ptrSub r.2 4) 4))) =
      some (4112, 16)) (hsize : 8 < size) {s' : Globals ι} {p : Nat}
    (heq : result = some (s', p)) :
    p ≠ 0 ∧ ¬ size + 8 ≤ tagSize (load s'.mem (ptrSub p 4) 4) := by
  rw [heq] at hfacts
  obtain ⟨hp, hchunk⟩ := Prod.mk.inj (Option.some.inj hfacts)
  dsimp only at hp hchunk
  omega

/-- A request for all bytes but one comes to a block of 16. -/
theorem request_size_arithmetic_fails : lowRegion.Sound ∧
    ¬ MallocHonest (Segregated.api lowRegion) (Client.initial _) (2 ^ 64 - 1) ∧
    ¬ MallocHonest (FirstFit.api lowRegion) (Client.initial _) (2 ^ 64 - 1) := by
  refine ⟨lowRegion_sound, ?_, ?_⟩
  · rintro ⟨s', p, heq, hroom⟩
    obtain ⟨hp, hnone⟩ := no_room (2 ^ 64 - 1) (by decide +kernel) (by decide) heq
    exact hnone (hroom hp).1
  · rintro ⟨s', p, heq, hroom⟩
    obtain ⟨hp, hnone⟩ := no_room (2 ^ 64 - 1) (by decide +kernel) (by decide) heq
    exact hnone (hroom hp).1

end AllocSitter
