/-
`my_malloc` on a represented heap.  The scan takes the first block of the
request's list that is large enough; the three ways it can end are stated one
by one and then put together.
-/
import AllocSitter.Representation
import AllocSitter.Client

namespace AllocSitter

open ByteMemory LinkedChain Tiling

variable {ι : Type} [DecidableEq ι] {binOf : Nat → ι}
  {account : Nat → AllocStat → AllocStat}

/-- Put a free block in front of the list of its class. -/
def pushBlock (binOf : Nat → ι) (lists : ι → List Block) (b : Block) :
    ι → List Block :=
  Function.update lists (binOf b.size) (b :: lists (binOf b.size))

theorem map_update (lists : ι → List Block) (i : ι) (l : List Block) :
    (fun j => (Function.update lists i l j).map Block.addr) =
      Function.update (fun j => (lists j).map Block.addr) i (l.map Block.addr) := by
  funext j
  by_cases hj : j = i
  · subst hj
    simp
  · simp [hj]

theorem chains_push (blocks : List Block) (lists : ι → List Block) (b : Block) :
    (Layout.mk blocks (pushBlock binOf lists b)).chains =
      Function.update (Layout.mk blocks lists).chains (binOf b.size)
        (b.addr :: (Layout.mk blocks lists).chains (binOf b.size)) :=
  map_update lists (binOf b.size) (b :: lists (binOf b.size))

theorem chains_update (blocks : List Block) (lists : ι → List Block) (i : ι)
    (l : List Block) :
    (Layout.mk blocks (Function.update lists i l)).chains =
      Function.update (Layout.mk blocks lists).chains i (l.map Block.addr) :=
  map_update lists i l

/-- Taking one block off a list and putting one on leaves the counter. -/
theorem ptrAdd_ptrSub_one {n : Nat} (hpos : 0 < n) (hlt : n < 2 ^ 64) :
    ptrAdd (ptrSub n 1) 1 = n := by
  rw [ptrSub_of_le hpos hlt, ptrAdd_of_lt (by omega)]
  omega

section Primitives

variable (s : Globals ι) (bin : ι)

theorem setLink_sameArena (link : Link Nat) (value : Nat) :
    SameArena s (setLink s bin link value) := by
  cases link <;> exact ⟨rfl, rfl, rfl, rfl, rfl, rfl⟩

@[simp] theorem setLink_stat (link : Link Nat) (value : Nat) :
    (setLink s bin link value).stat = s.stat := by
  cases link <;> rfl

theorem freelistPush_sameArena (header : Nat) :
    SameArena s (freelistPush s header bin) := ⟨rfl, rfl, rfl, rfl, rfl, rfl⟩

@[simp] theorem freelistPush_stat (header : Nat) :
    (freelistPush s header bin).stat =
      { s.stat with freelistLen := ptrAdd s.stat.freelistLen 1 } := rfl

omit [DecidableEq ι] in
theorem subFreelistLen_sameArena : SameArena s (subFreelistLen s) :=
  ⟨rfl, rfl, rfl, rfl, rfl, rfl⟩

omit [DecidableEq ι] in
@[simp] theorem subFreelistLen_stat :
    (subFreelistLen s).stat =
      { s.stat with freelistLen := ptrSub s.stat.freelistLen 1 } := rfl

end Primitives

section Row

variable {shape : Globals ι → List Block → Prop} {s : Globals ι} {L : Layout ι}

theorem RepresentsIn.head_eq (h : RepresentsIn shape binOf s L) {i : ι} {front back : List Block}
    {c : Block} (hlist : L.lists i = front ++ c :: back) :
    (Link.advance .head (front.map Block.addr)).target (nextFree s.mem) (s.freeHead i) =
      c.addr := by
  have hlinked := h.threaded.linked i
  simp only [Layout.chains, hlist, List.map_append, List.map_cons] at hlinked
  obtain ⟨mid, hfront, hback⟩ := segment_append.mp hlinked.1
  rw [Link.target_advance hfront]
  exact hback.1

end Row

section Found

variable {shape : Globals ι → List Block → Prop} [LawfulShape shape] {s : Globals ι}
  {L : Layout ι} {pre post front back : List Block} {c : Block} {bin : ι} {need : Nat}
  (haccount : ∀ n stat, (account n stat).freelistLen = stat.freelistLen)
  (h : RepresentsIn shape binOf s L) (hblocks : L.blocks = pre ++ c :: post)
  (hlist : L.lists bin = front ++ c :: back)

include h hblocks hlist

omit [LawfulShape shape] in
/-- A listed block is free, and its address is on no other place of the lists. -/
theorem RepresentsIn.listed :
    c.used = false ∧ binOf c.size = bin ∧ 0 < Layout.freeCount L.blocks ∧
      ∀ i, c.addr ∉ Function.update L.chains bin ((front ++ back).map Block.addr) i := by
  have hmem : c ∈ L.lists bin := by simp [hlist]
  obtain ⟨_, hfree, hbin⟩ := h.binned.mem_iff.mp hmem
  refine ⟨hfree, hbin, ?_, ?_⟩
  · simp [Layout.freeCount, hblocks, hfree]
  · intro i hi
    have hnodup := (h.threaded.linked bin).nodup
    simp only [Layout.chains, hlist, List.map_append, List.map_cons] at hnodup
    by_cases hib : i = bin
    · subst hib
      rw [Function.update_self, List.map_append] at hi
      exact (List.nodup_cons.mp (List.perm_middle.nodup hnodup)).1 hi
    · rw [Function.update_of_ne hib] at hi
      have hc : c.addr ∈ L.chains bin := List.mem_map_of_mem hmem
      exact hib (h.threaded.apart i bin _ hi hc)

include haccount

/-- Cutting a request off a larger listed block. -/
theorem splitBlock_spec (hge : 16 ≤ need) (hmod : need % 16 = 0)
    (hfit : need + 16 ≤ c.size) :
    ∃ s' : Globals ι,
      splitBlock binOf account s bin (Link.advance .head (front.map Block.addr))
          c.addr c.size need = (s', c.addr + 4) ∧
      RepresentsIn shape binOf s'
        ⟨pre ++ [c.taken need hge hmod, c.rest need hmod hfit] ++ post,
          pushBlock binOf (Function.update L.lists bin (front ++ back))
            (c.rest need hmod hfit)⟩ ∧
      (∀ b ∈ L.blocks, b.used = true → SameOn s.mem s'.mem b.addr b.size) ∧
      s'.stat = account need (addRealBytes s.stat need) ∧ SameArena s s' := by
  have hc : c ∈ L.blocks := by simp [hblocks]
  obtain ⟨hfree, hbin, hcount, hoff⟩ := h.listed hblocks hlist
  obtain ⟨hlow, hhigh, hsize, hcur, hpage⟩ := h.room.bounds hc
  have harena := h.arena
  have hthreaded := h.threaded
  have hbinned := h.binned
  rw [hblocks] at harena hthreaded hbinned
  have hmid : Tiles Block.addr Block.size c.addr [c] (c.addr + c.size) := ⟨rfl, rfl⟩
  have hrow : Spread Block.addr Block.size (s.arenaBase + 12) (pre ++ c :: post) s.arenaCur :=
    hblocks ▸ h.spread hc
  obtain ⟨hpre, hpost⟩ := hrow.middle
  obtain ⟨hcut, hframe⟩ :=
    Threaded.cut hge hmod hfit hthreaded hpre hpost hcur hsize
  have hrow' : Spread Block.addr Block.size (s.arenaBase + 12)
      (pre ++ [c.taken need hge hmod, c.rest need hmod hfit] ++ post) s.arenaCur :=
    spread_append.mpr ⟨_, spread_append.mpr ⟨_, hpre, (tiles_cut hge hmod hfit).spread⟩, hpost⟩
  have hm₂ : setTags (setTags s.mem c.addr (need + 1)) (c.addr + need) (c.size - need) =
      cutTags s.mem c need := rfl
  generalize cutTags s.mem c need = m₂ at hcut hframe hm₂
  let s₂ : Globals ι :=
    { s with stat := account need (addRealBytes s.stat need), mem := m₂ }
  have hchain : L.chains bin =
      front.map Block.addr ++ c.addr :: back.map Block.addr := by
    simp [Layout.chains, hlist]
  obtain ⟨hunlink, hframe₃⟩ := Threaded.unlink hrow' hcur (s := s₂) hcut hchain
  let s₃ := subFreelistLen
    (setLink s₂ bin (Link.advance .head (front.map Block.addr)) (nextFree m₂ c.addr))
  have hrest : c.rest need hmod hfit ∈
      pre ++ [c.taken need hge hmod, c.rest need hmod hfit] ++ post := by simp
  have hsplit : ∀ i, (c.rest need hmod hfit).addr ∉
      Function.update L.chains bin (front.map Block.addr ++ back.map Block.addr) i := by
    -- The rest starts inside the old block, where no other block starts.
    intro i hi
    have hold : (c.rest need hmod hfit).addr ∈ L.chains i := by
      by_cases hib : i = bin
      · subst hib
        rw [Function.update_self] at hi
        rw [hchain]
        simp only [List.mem_append, List.mem_cons] at hi ⊢
        tauto
      · rwa [Function.update_of_ne hib] at hi
    obtain ⟨b, hb, hba⟩ := h.threaded.placed i _ hold
    change b.addr = c.addr + need at hba
    have hge' := b.size_ge
    have := block_apart (h.spread hc) hb hc (by omega)
    omega
  obtain ⟨hpush, hframe₄⟩ := Threaded.push hrow' hcur (s := s₃) hunlink hrest
    (by change c.addr + need ≠ 0; omega) hsplit (binOf (c.size - need))
  have hlen : (account need (addRealBytes s.stat need)).freelistLen =
      Layout.freeCount L.blocks := (haccount _ _).trans h.length
  have hstat : (freelistPush s₃ (c.addr + need) (binOf (c.size - need))).stat =
      account need (addRealBytes s.stat need) := by
    have hlt := h.room.freeCount_lt
    simp only [s₃, freelistPush_stat, subFreelistLen_stat, setLink_stat]
    rw [show s₂.stat = account need (addRealBytes s.stat need) from rfl,
      ptrAdd_ptrSub_one (by omega) (by omega)]
  have hsame : SameArena s (freelistPush s₃ (c.addr + need) (binOf (c.size - need))) :=
    (SameArena.of_mem_stat s _ _).trans ((setLink_sameArena s₂ bin _ _).trans
      ((subFreelistLen_sameArena _).trans (freelistPush_sameArena s₃ _ _)))
  refine ⟨freelistPush s₃ (c.addr + need) (binOf (c.size - need)), ?_, ?_, ?_, hstat, hsame⟩
  · have hnext : nextFree m₂ c.addr = load m₂ (c.addr + 4) 8 := by
      rw [nextFree, ptrAdd_of_lt (by omega)]
    have hadd₄ : ptrAdd c.addr 4 = c.addr + 4 := ptrAdd_of_lt (by omega)
    have haddn : ptrAdd c.addr need = c.addr + need := ptrAdd_of_lt (by omega)
    have hsub : ptrSub c.size need = c.size - need := ptrSub_of_le (by omega) (by omega)
    have hor : need ||| 1 = need + 1 := or_one_of_even (by omega)
    have hbinSplit : load s₃.mem (c.addr + need) 4 = c.size - need :=
      (hunlink.tagged _ hrest).1
    simp only [splitBlock, hadd₄, haddn, hsub, hor, hm₂, ← hnext]
    rw [show load (subFreelistLen _).mem (c.addr + need) 4 = c.size - need from hbinSplit]
  · refine ⟨?_, ?_, ?_, ?_⟩
    · rw [chains_push, chains_update, List.map_append]
      exact hpush
    · have harena' : shape s (pre ++ [c] ++ post) := by simpa using harena
      exact LawfulShape.same (LawfulShape.exchange harena' hmid (tiles_cut hge hmod hfit)
        (by simp) (by simp)) hsame
    · have hbinned' := ((hbinned.remove hlist).insert_free (c := c.rest need hmod hfit)
        rfl).insert_used (c := c.taken need hge hmod) rfl
      simpa [pushBlock] using hbinned'
    · rw [hstat, hlen, hblocks]
      simp [Layout.freeCount, Block.taken, Block.rest, Block.fresh, hfree]
  · intro b hb hused
    have hne := ne_of_used hused hfree
    have hother : b ∈ pre ++ post := mem_row_of_ne (hblocks ▸ hb) hne
    have hfront : b.addr ∉ front.map Block.addr := fun hmem =>
      h.used_off_lists hb hused bin (by rw [hchain]; simp [hmem])
    have hsep := ((h.spread hc).eq_or_apart hc hb).resolve_left hne
    refine (hframe b hother).trans
      ((hframe₃ b (mem_row_of_mem hother) hfront).trans (hframe₄.sameOn ?_))
    change b.addr + b.size ≤ c.addr + need + 4 ∨ c.addr + need + 4 + 8 ≤ b.addr
    omega

/-- Handing out a listed block as it is. -/
theorem wholeBlock_spec :
    ∃ s' : Globals ι,
      wholeBlock account s bin (Link.advance .head (front.map Block.addr))
          c.addr c.size = (s', c.addr + 4) ∧
      RepresentsIn shape binOf s'
        ⟨pre ++ [c.taken c.size c.size_ge c.size_mod] ++ post,
          Function.update L.lists bin (front ++ back)⟩ ∧
      (∀ b ∈ L.blocks, b.used = true → SameOn s.mem s'.mem b.addr b.size) ∧
      s'.stat =
        { account c.size (addRealBytes s.stat c.size) with
          freelistLen := Layout.freeCount L.blocks - 1 } ∧
      SameArena s s' := by
  have hc : c ∈ L.blocks := by simp [hblocks]
  obtain ⟨hfree, hbin, hcount, hoff⟩ := h.listed hblocks hlist
  obtain ⟨hlow, hhigh, hsize, hcur, hpage⟩ := h.room.bounds hc
  have hge := c.size_ge
  have harena := h.arena
  have hthreaded := h.threaded
  have hbinned := h.binned
  rw [hblocks] at harena hthreaded hbinned
  have hmid : Tiles Block.addr Block.size c.addr [c] (c.addr + c.size) := ⟨rfl, rfl⟩
  have hmid' : Tiles Block.addr Block.size c.addr [c.taken c.size c.size_ge c.size_mod]
      (c.addr + c.size) := ⟨rfl, rfl⟩
  have hrow : Spread Block.addr Block.size (s.arenaBase + 12) (pre ++ c :: post) s.arenaCur :=
    hblocks ▸ h.spread hc
  obtain ⟨hpre, hpost⟩ := hrow.middle
  have hrow' : Spread Block.addr Block.size (s.arenaBase + 12)
      (pre ++ [c.taken c.size c.size_ge c.size_mod] ++ post) s.arenaCur :=
    spread_append.mpr ⟨_, spread_append.mpr ⟨_, hpre, hmid'.spread⟩, hpost⟩
  obtain ⟨htake, hframe⟩ := hthreaded.retagOne (d := c.taken c.size c.size_ge c.size_mod)
    hpre hpost hcur hsize rfl rfl rfl
  rw [show (c.taken c.size c.size_ge c.size_mod).head = c.size + 1 from rfl]
    at htake hframe
  generalize hm₂ : setTags s.mem c.addr (c.size + 1) = m₂ at htake hframe
  let s₂ : Globals ι :=
    { s with mem := m₂, stat := account c.size (addRealBytes s.stat c.size) }
  have hchain : L.chains bin =
      front.map Block.addr ++ c.addr :: back.map Block.addr := by
    simp [Layout.chains, hlist]
  obtain ⟨hunlink, hframe₃⟩ := Threaded.unlink hrow' hcur (s := s₂) htake hchain
  let s₃ := subFreelistLen
    (setLink s₂ bin (Link.advance .head (front.map Block.addr)) (nextFree m₂ c.addr))
  have hstat : s₃.stat = { account c.size (addRealBytes s.stat c.size) with
      freelistLen := Layout.freeCount L.blocks - 1 } := by
    have hlt := h.room.freeCount_lt
    have hlen : (account c.size (addRealBytes s.stat c.size)).freelistLen =
        Layout.freeCount L.blocks := (haccount _ _).trans h.length
    simp only [s₃, subFreelistLen_stat, setLink_stat]
    rw [show s₂.stat = account c.size (addRealBytes s.stat c.size) from rfl, hlen,
      ptrSub_of_le hcount (by omega)]
  have hsame : SameArena s s₃ :=
    (SameArena.of_mem_stat s _ _).trans ((setLink_sameArena s₂ bin _ _).trans
      (subFreelistLen_sameArena _))
  refine ⟨s₃, ?_, ⟨?_, ?_, ?_, ?_⟩, ?_, hstat, hsame⟩
  · have hnext : nextFree m₂ c.addr = load m₂ (c.addr + 4) 8 := by
      rw [nextFree, ptrAdd_of_lt (by omega)]
    have hadd₄ : ptrAdd c.addr 4 = c.addr + 4 := ptrAdd_of_lt (by omega)
    have hor : c.size ||| 1 = c.size + 1 := or_one_of_even (by have := c.size_mod; omega)
    simp only [wholeBlock, hadd₄, hor, hm₂, ← hnext]
    rfl
  · rw [chains_update, List.map_append]
    exact hunlink
  · have harena' : shape s (pre ++ [c] ++ post) := by simpa using harena
    exact LawfulShape.same (LawfulShape.exchange harena' hmid hmid' (by simp) (by simp)) hsame
  · have hbinned' := (hbinned.remove hlist).insert_used
      (c := c.taken c.size c.size_ge c.size_mod) rfl
    simpa using hbinned'
  · rw [hstat, hblocks]
    simp [Layout.freeCount, Block.taken, Block.fresh, hfree]
  · intro b hb hused
    have hother : b ∈ pre ++ post :=
      mem_row_of_ne (hblocks ▸ hb) (ne_of_used hused hfree)
    have hfront : b.addr ∉ front.map Block.addr := fun hmem =>
      h.used_off_lists hb hused bin (by rw [hchain]; simp [hmem])
    exact (hframe b hother).trans (hframe₃ b (mem_row_of_mem hother) hfront)

end Found

section Extend

variable {shape : Globals ι → List Block → Prop} [LawfulShape shape] {mmap : Mmap}
  {s : Globals ι} {L : Layout ι} {need : Nat}

/-- The bytes skipped in front of the next header: the first block goes to an
address congruent to 12 modulo 16, and every block ends at such an address. -/
def padding (L : Layout ι) : Nat := if L.blocks = [] then 12 else 0

omit [DecidableEq ι] in
theorem ArenaShape.padding_eq (h : ArenaShape s L.blocks) (hbase : s.arenaBase ≠ 0) :
    ptrSub 12 s.arenaCur % 16 = padding L := by
  have hcur := h.room.cur_lt hbase
  obtain ⟨hpage, _⟩ := h.region hbase
  unfold padding ptrSub
  split
  · next hnil =>
      have huntouched := (h.untouched hnil).2
      omega
  · next hne =>
      have hmod := h.cur_mod hne
      omega

omit [DecidableEq ι] in
theorem arenaExtend_zero (hbase : s.arenaBase ≠ 0) :
    arenaExtend mmap s 0 = (s, s.arenaCur) := by
  simp [arenaExtend, moveBreak, hbase]

omit [DecidableEq ι] in
theorem arenaExtend_pos (hbase : s.arenaBase ≠ 0) {n : Nat} (hn : n ≠ 0)
    (hwrap : s.arenaCur + n < 2 ^ 64) :
    arenaExtend mmap s n =
      if s.arenaCur + n > s.arenaEnd then (s, mapFailed)
      else ({ s with arenaCur := s.arenaCur + n }, s.arenaCur) := by
  simp only [arenaExtend, moveBreak, hbase, hn, ↓reduceIte, ptrAdd_of_lt hwrap]

/-- The heap with a used block of `need` bytes written `pad` bytes behind the break. -/
def grown (account : Nat → AllocStat → AllocStat) (s : Globals ι) (need pad : Nat) :
    Globals ι :=
  { s with
    mem := setTags s.mem (s.arenaCur + pad) (need + 1)
    stat := account need (addRealBytes s.stat (need + pad))
    heapLo := if s.heapLo = 0 then s.arenaCur + pad else s.heapLo
    heapHi := s.arenaCur + (need + pad)
    arenaCur := s.arenaCur + (need + pad) }

omit [DecidableEq ι] in
/-- The first call of `arena_extend` says how many bytes to skip, the second one moves
the break of `t`. -/
theorem extendHeap_grown {s₁ t : Globals ι} {cur pad : Nat}
    (hfirst : arenaExtend mmap s 0 = (s₁, cur)) (hpad : ptrSub 12 cur % 16 = pad)
    (hsecond : arenaExtend mmap s₁ (need + pad) =
      ({ t with arenaCur := t.arenaCur + (need + pad) }, t.arenaCur))
    (hbase : t.arenaBase ≠ 0) (hge : 16 ≤ need) (hmod : need % 16 = 0) (hsmall : need < 2 ^ 32)
    (hwrap : t.arenaCur + need + pad < 2 ^ 64) :
    extendHeap account mmap s need = (grown account t need pad, t.arenaCur + pad + 4) := by
  have hn : ptrAdd need pad = need + pad := ptrAdd_of_lt (by omega)
  have hthird : arenaExtend mmap { t with arenaCur := t.arenaCur + (need + pad) } 0 =
      ({ t with arenaCur := t.arenaCur + (need + pad) }, t.arenaCur + (need + pad)) :=
    arenaExtend_zero hbase
  have hne : t.arenaCur ≠ mapFailed := by
    unfold mapFailed
    omega
  have hor : need % 2 ^ 32 ||| 1 = need + 1 := by
    rw [Nat.mod_eq_of_lt hsmall, or_one_of_even (by omega)]
  have hheader : ptrAdd t.arenaCur pad = t.arenaCur + pad := ptrAdd_of_lt (by omega)
  have hpayload : ptrAdd (t.arenaCur + pad) 4 = t.arenaCur + pad + 4 :=
    ptrAdd_of_lt (by omega)
  simp only [extendHeap, hfirst, hpad, hn, hsecond, hthird, hne, ↓reduceIte, hheader, hpayload,
    hor]
  by_cases hlo : t.heapLo = 0
  · simp only [hlo, ↓reduceIte, grown]
  · simp only [hlo, ↓reduceIte, grown]

-- The top is assigned before anything reads it, so the heap below need not know it.
/-- The new block stands behind the others. -/
theorem RepresentsIn.grown {pad : Nat} {d : Block}
    (h : RepresentsIn shape binOf { s with heapHi := s.arenaCur } L) (hbase : s.arenaBase ≠ 0)
    (haddr : d.addr = s.arenaCur + pad) (hhead : d.head = need + 1)
    (hused : d.used = true) (hfoot : d.foot = d.used)
    (hend : s.arenaCur + need + pad ≤ s.arenaEnd) (hsmall : need < 2 ^ 32)
    (haccount : ∀ n stat, (account n stat).freelistLen = stat.freelistLen)
    (harena : shape (AllocSitter.grown account s need pad) (L.blocks ++ [d])) :
    RepresentsIn shape binOf (AllocSitter.grown account s need pad)
        ⟨L.blocks ++ [d], L.lists⟩ ∧
      ∀ b ∈ L.blocks,
        SameOn s.mem (AllocSitter.grown account s need pad).mem b.addr b.size := by
  have hregion : s.arenaBase % 4096 = 0 ∧ 4096 ≤ s.arenaBase ∧
      s.arenaBase + arenaSize < 2 ^ 64 ∧ s.arenaEnd = s.arenaBase + arenaSize :=
    h.room.region hbase
  have hsize : d.size = need := by
    have hflag : d.head = d.size + 1 := by rw [Block.head, hused]; rfl
    omega
  have hmem : (AllocSitter.grown account s need pad).mem = setTags s.mem d.addr d.head := by
    rw [haddr, hhead]
    rfl
  have hsame : ∀ x, x < d.addr → setTags s.mem d.addr d.head x = s.mem x :=
    fun x hx => setTags_sameOutside s.mem (by omega) (by omega) x (by omega)
  have hbelow : ∀ b ∈ L.blocks, b.addr + b.size ≤ d.addr := by
    intro b hb
    have hbounds : b.addr + b.size ≤ s.arenaCur := (h.room.bounds hb).2.1
    omega
  refine ⟨⟨?_, harena, ?_, ?_⟩, ?_⟩
  · rw [hmem]
    exact h.threaded.append hbelow (by omega) hsame
      (setTags_tagged s.mem (by omega) (by omega) hfoot)
  · have hbinned := (show Binned binOf L.lists (L.blocks ++ []) by
      simpa using h.binned).insert_used (c := d) hused
    exact hbinned
  · have hlen : s.stat.freelistLen = Layout.freeCount L.blocks := h.length
    change (account need (addRealBytes s.stat (need + pad))).freelistLen = _
    rw [haccount]
    change s.stat.freelistLen = _
    rw [hlen]
    simp [Layout.freeCount, hused]
  · intro b hb x _ hhi
    have := hbelow b hb
    rw [hmem]
    exact hsame x (by omega)

variable (h : Represents binOf { s with heapHi := s.arenaCur } L)
  (hbase : s.arenaBase ≠ 0) (hge : 16 ≤ need)
  (hmod : need % 16 = 0) (hwrap : s.arenaCur + need + padding L < 2 ^ 64)

include h hbase hge hwrap

/-- No room below the end: only the top is set. -/
theorem extendHeap_full (hfull : s.arenaCur + need + padding L > s.arenaEnd) :
    extendHeap account mmap s need = ({ s with heapHi := s.arenaCur }, 0) := by
  have hpad : ptrSub 12 s.arenaCur % 16 = padding L := h.arena.padding_eq hbase
  have hn : ptrAdd need (padding L) = need + padding L := ptrAdd_of_lt (by omega)
  have hext : arenaExtend mmap s (need + padding L) = (s, mapFailed) := by
    rw [arenaExtend_pos hbase (by omega) (by omega), if_pos (by omega)]
  simp only [extendHeap, arenaExtend_zero hbase, hpad, hn, hext, ↓reduceIte]

include hmod in
/-- Room below the end: a used block is written behind the last one. -/
theorem extendHeap_room (haccount : ∀ n stat, (account n stat).freelistLen = stat.freelistLen)
    (hroom : s.arenaCur + need + padding L ≤ s.arenaEnd) :
    ∃ s' : Globals ι,
      extendHeap account mmap s need = (s', s.arenaCur + padding L + 4) ∧
      Represents binOf s'
        ⟨L.blocks ++ [Block.fresh (s.arenaCur + padding L) need true hge hmod], L.lists⟩ ∧
      (∀ b ∈ L.blocks, SameOn s.mem s'.mem b.addr b.size) ∧
      s'.stat = account need (addRealBytes s.stat (need + padding L)) ∧
      s'.arenaCur = s.arenaCur + need + padding L ∧ s'.heapLo = s.arenaBase + 12 ∧
      s'.arenaBase = s.arenaBase ∧ s'.arenaEnd = s.arenaEnd ∧
      s'.mmapCalls = s.mmapCalls := by
  have hpad : ptrSub 12 s.arenaCur % 16 = padding L := h.arena.padding_eq hbase
  have hregion : s.arenaBase % 4096 = 0 ∧ 4096 ≤ s.arenaBase ∧
      s.arenaBase + arenaSize < 2 ^ 64 ∧ s.arenaEnd = s.arenaBase + arenaSize :=
    h.room.region hbase
  have htop : s.arenaBase ≤ s.arenaCur ∧ s.arenaCur ≤ s.arenaEnd := h.room.top hbase
  simp only [arenaSize] at hregion
  have hext : arenaExtend mmap s (need + padding L) =
      ({ s with arenaCur := s.arenaCur + (need + padding L) }, s.arenaCur) := by
    rw [arenaExtend_pos hbase (by omega) (by omega), if_neg (by omega)]
  generalize hd : Block.fresh (s.arenaCur + padding L) need true hge hmod = d
  have haddr : d.addr = s.arenaCur + padding L := by rw [← hd]; rfl
  have hsize : d.size = need := by rw [← hd]; rfl
  have hhead : d.head = need + 1 := by rw [← hd]; rfl
  have hfoot : d.foot = d.used := by rw [← hd]; rfl
  have hused : d.used = true := by rw [← hd]; rfl
  -- Where the heap starts then and where it ends, and that the tag can hold the size.
  have hrow : need < 2 ^ 32 ∧ (grown account s need (padding L)).heapLo = s.arenaBase + 12 ∧
      Tiles Block.addr Block.size (s.arenaBase + 12) (L.blocks ++ [d])
        (s.arenaCur + (need + padding L)) := by
    by_cases hnil : L.blocks = []
    · have huntouched : s.heapLo = 0 ∧ s.arenaCur = s.arenaBase := h.arena.untouched hnil
      have hpad' : padding L = 12 := by simp [padding, hnil]
      refine ⟨by omega, by simp [grown, huntouched, hpad'], ?_⟩
      rw [hnil]
      refine ⟨by omega, ?_⟩
      simp only [Tiles]
      omega
    · have htiles : s.heapLo = s.arenaBase + 12 ∧
          Tiles Block.addr Block.size s.heapLo L.blocks s.arenaCur := h.arena.tiles hnil
      have hpad' : padding L = 0 := by simp [padding, hnil]
      have hle := htiles.2.le
      rw [hpad', Nat.add_zero] at haddr ⊢
      refine ⟨by omega, by simp [grown, htiles.1], ?_⟩
      rw [← htiles.1, ← hsize]
      exact htiles.2.concat haddr
  obtain ⟨hsmall, hlo, htiles⟩ := hrow
  have harena : ArenaShape (grown account s need (padding L)) (L.blocks ++ [d]) := by
    refine ⟨fun hzero => absurd hzero hbase, fun hnil => by simp at hnil, h.arena.region,
      fun _ => ⟨rfl, ?_⟩, fun _ => ⟨hlo, hlo ▸ htiles⟩⟩
    change s.arenaCur + (need + padding L) ≤ s.arenaEnd
    omega
  obtain ⟨hrep, hframe⟩ := h.grown hbase haddr hhead hused hfoot hroom hsmall haccount harena
  refine ⟨_, extendHeap_grown (arenaExtend_zero hbase) hpad hext hbase hge hmod hsmall hwrap,
    hrep, hframe, rfl, ?_, hlo, rfl, rfl, rfl⟩
  change s.arenaCur + (need + padding L) = _
  omega

end Extend

section Unmapped

variable {mmap : Mmap} {s : Globals ι} {L : Layout ι} {need base : Nat}

/-- Without blocks nothing is listed, so memory and arena may change freely. -/
theorem RepresentsIn.of_no_blocks {shape : Globals ι → List Block → Prop} {s' : Globals ι}
    (h : RepresentsIn shape binOf s L) (hnil : L.blocks = []) (hhead : s'.freeHead = s.freeHead)
    (hlen : s'.stat.freelistLen = s.stat.freelistLen) (harena : shape s' []) :
    RepresentsIn shape binOf s' L := by
  have hlists : ∀ i, L.chains i = [] := by
    intro i
    have hperm := h.binned i
    rw [hnil, List.filter_nil] at hperm
    simp [Layout.chains, hperm.eq_nil]
  refine ⟨⟨by simp [hnil], fun i => ?_, by simp [hlists], by simp [hlists]⟩,
    hnil ▸ harena, h.binned, hlen.trans h.length⟩
  have hlinked := h.threaded.linked i
  rw [hlists i, linked_nil] at hlinked ⊢
  rw [hhead, hlinked]

/-- A region that has just been installed, with the top set as the end of
`my_malloc` sets it. -/
def installed (s : Globals ι) (base : Nat) : Globals ι :=
  { installArena s base with heapHi := base }

theorem RepresentsIn.install (h : Represents binOf s L) (hbase : s.arenaBase = 0)
    (hregion : base % 4096 = 0 ∧ 4096 ≤ base ∧ base + arenaSize < 2 ^ 64) :
    Represents binOf (installed s base) L := by
  have hnil := h.arena.unmapped hbase
  refine h.of_no_blocks hnil rfl rfl ⟨fun _ => rfl, fun _ => ?_, fun _ => ?_, fun _ => ?_, ?_⟩
  · exact ⟨(h.arena.untouched hnil).1, rfl⟩
  · exact ⟨hregion.1, hregion.2.1, hregion.2.2, ptrAdd_of_lt hregion.2.2⟩
  · refine ⟨rfl, ?_⟩
    change base ≤ ptrAdd base arenaSize
    rw [ptrAdd_of_lt hregion.2.2]
    omega
  · exact fun hne => absurd rfl hne

omit [DecidableEq ι] in
/-- The first `arena_extend(0)` maps the region; the rest finds it mapped. -/
theorem extendHeap_install (hbase : s.arenaBase = 0) (hpos : base ≠ 0)
    (hmap : mmap s.mmapCalls = some base) :
    extendHeap account mmap s need = extendHeap account mmap (installArena s base) need := by
  have hfirst : arenaExtend mmap s 0 = (installArena s base, base) := by
    simp [arenaExtend, hbase, hmap, moveBreak, installArena]
  have hfirst' : arenaExtend mmap (installArena s base) 0 = (installArena s base, base) :=
    arenaExtend_zero hpos
  simp only [extendHeap, hfirst, hfirst']

/-- Two failures of `mmap` in a row: the request is refused, and the third call
may or may not bring the region. -/
theorem extendHeap_unmapped (h : Represents binOf s L) (hsound : mmap.Sound)
    (hbase : s.arenaBase = 0) (hfirst : mmap s.mmapCalls = none)
    (hsecond : mmap (s.mmapCalls + 1) = none) :
    ∃ s' : Globals ι, extendHeap account mmap s need = (s', 0) ∧
      Represents binOf s' L ∧ s'.stat = s.stat ∧ s'.arenaCur = s'.arenaBase := by
  have hnil := h.arena.unmapped hbase
  obtain ⟨hlo, hcur⟩ := h.arena.untouched hnil
  cases hthird : mmap (s.mmapCalls + 1 + 1) with
  | none =>
      refine ⟨{ s with mmapCalls := s.mmapCalls + 3, heapHi := mapFailed }, ?_, ?_, rfl, hcur⟩
      · simp [extendHeap, arenaExtend, hbase, hfirst, hsecond, hthird]
      · exact h.of_no_blocks hnil rfl rfl ⟨fun _ => rfl, fun _ => ⟨hlo, hcur⟩,
          fun hne => absurd hbase hne, fun hne => absurd hbase hne, fun hne => absurd rfl hne⟩
  | some base =>
      refine ⟨installed { s with mmapCalls := s.mmapCalls + 2 } base, ?_, ?_, rfl, rfl⟩
      · simp [extendHeap, arenaExtend, hbase, hfirst, hsecond, hthird, moveBreak,
          installed, installArena]
      · have hwaiting : Represents binOf { s with mmapCalls := s.mmapCalls + 2 } L :=
          h.of_no_blocks hnil rfl rfl ⟨fun _ => rfl, fun _ => ⟨hlo, hcur⟩,
            fun hne => absurd hbase hne, fun hne => absurd hbase hne, fun hne => absurd rfl hne⟩
        exact hwaiting.install hbase (hsound _ _ hthird)

/-- `mmap` fails for the unchecked `arena_extend(0)` and succeeds for the next
call, which refuses the request for its size. -/
theorem extendHeap_late (h : Represents binOf s L)
    (hregion : base % 4096 = 0 ∧ 4096 ≤ base ∧ base + arenaSize < 2 ^ 64)
    (hbase : s.arenaBase = 0) (hfirst : mmap s.mmapCalls = none)
    (hsecond : mmap (s.mmapCalls + 1) = some base)
    (hbig : arenaSize < need + 13 ∧ base + need + 13 < 2 ^ 64) :
    ∃ s' : Globals ι, extendHeap account mmap s need = (s', 0) ∧
      Represents binOf s' L ∧ s'.stat = s.stat ∧ s'.arenaCur = s'.arenaBase := by
  have hnil := h.arena.unmapped hbase
  obtain ⟨hlo, hcur⟩ := h.arena.untouched hnil
  let s₁ : Globals ι := { s with mmapCalls := s.mmapCalls + 1 }
  have hwaiting : Represents binOf s₁ L :=
    h.of_no_blocks hnil rfl rfl ⟨fun _ => rfl, fun _ => ⟨hlo, hcur⟩,
      fun hne => absurd hbase hne, fun hne => absurd hbase hne, fun hne => absurd rfl hne⟩
  refine ⟨installed s₁ base, ?_, hwaiting.install hbase hregion, rfl, rfl⟩
  have hpad : ptrSub 12 mapFailed % 16 = 13 := by decide
  have hneed : ptrAdd need 13 = need + 13 := ptrAdd_of_lt (by omega)
  have hpos : (installArena s₁ base).arenaBase ≠ 0 := by
    change base ≠ 0
    omega
  have hend : (installArena s₁ base).arenaEnd = base + arenaSize :=
    ptrAdd_of_lt hregion.2.2
  have hsum : ptrAdd (installArena s₁ base).arenaCur (need + 13) = base + (need + 13) :=
    ptrAdd_of_lt (by change base + (need + 13) < 2 ^ 64; omega)
  have hzero : arenaExtend mmap s 0 = (s₁, mapFailed) := by
    simp [arenaExtend, hbase, hfirst, s₁]
  have hext : arenaExtend mmap s₁ (need + 13) = (installArena s₁ base, mapFailed) := by
    have hunmapped : s₁.arenaBase = 0 := hbase
    have hcall : mmap s₁.mmapCalls = some base := hsecond
    have hfull : base + (need + 13) > base + arenaSize := by omega
    simp only [arenaExtend, hunmapped, hcall, moveBreak, hsum, hend, hfull, ↓reduceIte,
      Nat.add_eq_zero_iff, OfNat.ofNat_ne_zero, and_false]
  have htop : arenaExtend mmap (installArena s₁ base) 0 = (installArena s₁ base, base) :=
    arenaExtend_zero hpos
  simp only [extendHeap, hzero, hpad, hneed, hext, htop, ↓reduceIte]
  rfl

end Unmapped

/-- A request that leaves room for the sums of the scan is rounded up as meant. -/
theorem chunkNeed_bounds {size : Nat} (h : size + 40 ≤ 2 ^ 64) :
    16 ≤ chunkNeed size ∧ chunkNeed size % 16 = 0 ∧ size + 8 ≤ chunkNeed size ∧
      chunkNeed size ≤ size + 23 ∧ chunkNeed size + 16 < 2 ^ 64 := by
  unfold chunkNeed tagSize
  omega

/-- What a call of `my_malloc` for a chunk of `need` bytes can do to an abstract
heap, with the first-fit side conditions and the change of the globals. -/
inductive MallocCase (binOf : Nat → ι) (account : Nat → AllocStat → AllocStat)
    (mmap : Mmap) (s : Globals ι) (L : Layout ι) (need : Nat) :
    Globals ι → Nat → Layout ι → Prop
  | split {s' : Globals ι} {pre post front back : List Block} {c : Block}
      (hge : 16 ≤ need) (hmod : need % 16 = 0) (hfit : need + 16 ≤ c.size)
      (hblocks : L.blocks = pre ++ c :: post)
      (hlist : L.lists (binOf need) = front ++ c :: back)
      (hfront : ∀ b ∈ front, b.size < need)
      (hstat : s'.stat =
        account need (addRealBytes (addScanSteps s (front.length + 1)).stat need))
      (hsame : SameArena s s') :
      MallocCase binOf account mmap s L need s' (c.addr + 4)
        ⟨pre ++ [c.taken need hge hmod, c.rest need hmod hfit] ++ post,
          pushBlock binOf (Function.update L.lists (binOf need) (front ++ back))
            (c.rest need hmod hfit)⟩
  | whole {s' : Globals ι} {pre post front back : List Block} {c : Block}
      (hsize : c.size = need)
      (hblocks : L.blocks = pre ++ c :: post)
      (hlist : L.lists (binOf need) = front ++ c :: back)
      (hfront : ∀ b ∈ front, b.size < need)
      (hstat : s'.stat =
        { account need (addRealBytes (addScanSteps s (front.length + 1)).stat need) with
          freelistLen := Layout.freeCount L.blocks - 1 })
      (hsame : SameArena s s') :
      MallocCase binOf account mmap s L need s' (c.addr + 4)
        ⟨pre ++ [c.taken c.size c.size_ge c.size_mod] ++ post,
          Function.update L.lists (binOf need) (front ++ back)⟩
  | extend {s' : Globals ι} {top : Nat} (hge : 16 ≤ need) (hmod : need % 16 = 0)
      (hmiss : ∀ b ∈ L.lists (binOf need), b.size < need)
      (htop : (s.arenaBase ≠ 0 ∧ top = s.arenaCur ∧ s'.arenaBase = s.arenaBase) ∨
        (s.arenaBase = 0 ∧ mmap s.mmapCalls = some top ∧ s'.arenaBase = top))
      (hstat : s'.stat = account need (addRealBytes
        (addScanSteps s (L.lists (binOf need)).length).stat (need + padding L)))
      (hcur : s'.arenaCur = top + need + padding L)
      (hlo : s'.heapLo = s'.arenaBase + 12) :
      MallocCase binOf account mmap s L need s' (top + padding L + 4)
        ⟨L.blocks ++ [Block.fresh (top + padding L) need true hge hmod], L.lists⟩
  | fail {s' : Globals ι}
      (hmiss : ∀ b ∈ L.lists (binOf need), b.size < need)
      (hwhy : (s.arenaBase ≠ 0 ∧ s.arenaEnd < s.arenaCur + need + padding L ∧
          s' = addScanSteps s (L.lists (binOf need)).length) ∨
        (s.arenaBase = 0 ∧ (mmap s.mmapCalls = none ∨ arenaSize < need + 12) ∧
          s'.arenaCur = s'.arenaBase))
      (hstat : s'.stat = (addScanSteps s (L.lists (binOf need)).length).stat) :
      MallocCase binOf account mmap s L need s' 0 L

section Spec

variable {shape : Globals ι → List Block → Prop} [LawfulShape shape] {mmap : Mmap}
  {s : Globals ι} {L : Layout ι} {size : Nat}

/-- Counting scan steps changes nothing else. -/
theorem RepresentsIn.addScanSteps (h : RepresentsIn shape binOf s L) (steps : Nat) :
    RepresentsIn shape binOf (AllocSitter.addScanSteps s steps) L :=
  h.of_same h.threaded (SameArena.of_mem_stat s _ _) rfl

theorem RepresentsIn.list_length_lt (h : RepresentsIn shape binOf s L) (i : ι) :
    (L.lists i).length < walkFuel := by
  have hle := h.binned.length_le i
  have hlt := h.room.length_lt
  unfold walkFuel
  omega

omit [LawfulShape shape] in
/-- A listed block stops the scan when it is large enough. -/
theorem RepresentsIn.fits_iff (h : RepresentsIn shape binOf s L) {i : ι} {b : Block} {need : Nat}
    (hneed : need + 16 < 2 ^ 64) (hb : b ∈ L.lists i) :
    fits s.mem need b.addr = decide (need ≤ b.size) := by
  have hrow := (h.binned.mem_iff.mp hb).1
  have htag := (h.threaded.tagged b hrow).tagSize_head
  simp only [fits, htag, ptrAdd_of_lt hneed]
  by_cases hle : need ≤ b.size
  · simp [hle]
  · have hlt : ¬ need + 16 ≤ b.size := by omega
    simp [hle, hlt]

/-- The scan stops at the first listed block that passes its test. -/
theorem RepresentsIn.walk_first (h : RepresentsIn shape binOf s L) {i : ι} {need : Nat}
    {front back : List Block} {c : Block} (hlist : L.lists i = front ++ c :: back)
    (hfront : ∀ b ∈ front, fits s.mem need b.addr = false)
    (hstop : fits s.mem need c.addr = true) :
    walk (nextFree s.mem) 0 (s.freeHead i) (fits s.mem need) walkFuel .head 0 =
      some (front.length + 1, some (Link.advance .head (front.map Block.addr))) := by
  have hlen := h.list_length_lt i
  have hlinked := h.threaded.linked i
  simp only [Layout.chains, hlist, List.map_append, List.map_cons] at hlinked
  rw [walk_of_first_stop hlinked]
  · simp
  · simp only [hlist, List.length_append, List.length_cons, List.length_map] at hlen ⊢
    omega
  · intro a ha
    obtain ⟨b, hb, rfl⟩ := List.mem_map.mp ha
    exact hfront b hb
  · exact hstop

/-- The scan goes through the list when no block passes its test. -/
theorem RepresentsIn.walk_none (h : RepresentsIn shape binOf s L) {i : ι} {need : Nat}
    (hmiss : ∀ b ∈ L.lists i, fits s.mem need b.addr = false) :
    walk (nextFree s.mem) 0 (s.freeHead i) (fits s.mem need) walkFuel .head 0 =
      some ((L.lists i).length, none) := by
  have hlen := h.list_length_lt i
  have hlinked := h.threaded.linked i
  rw [walk_of_none_stop hlinked]
  · simp [Layout.chains]
  · simpa [Layout.chains] using hlen
  · intro a ha
    obtain ⟨b, hb, rfl⟩ := List.mem_map.mp ha
    exact hmiss b hb

/-- The scan, for a request of any size: it stops at a listed block, or at none. -/
theorem RepresentsIn.scan_cases (h : RepresentsIn shape binOf s L) (need : Nat) :
    (∃ front c back, L.lists (binOf need) = front ++ c :: back ∧
        (∀ b ∈ front, fits s.mem need b.addr = false) ∧ fits s.mem need c.addr = true ∧
        walk (nextFree s.mem) 0 (s.freeHead (binOf need)) (fits s.mem need) walkFuel .head 0 =
          some (front.length + 1, some (Link.advance .head (front.map Block.addr)))) ∨
      ((∀ b ∈ L.lists (binOf need), fits s.mem need b.addr = false) ∧
        walk (nextFree s.mem) 0 (s.freeHead (binOf need)) (fits s.mem need) walkFuel .head 0 =
          some ((L.lists (binOf need)).length, none)) := by
  cases hfind : (L.lists (binOf need)).find? (fun b => fits s.mem need b.addr) with
  | some c =>
      obtain ⟨hstop, front, back, hlist, hrest⟩ := List.find?_eq_some_iff_append.mp hfind
      have hfront : ∀ b ∈ front, fits s.mem need b.addr = false := by
        intro b hb
        simpa using hrest b hb
      exact Or.inl ⟨front, c, back, hlist, hfront, hstop, h.walk_first hlist hfront hstop⟩
  | none =>
      have hmiss : ∀ b ∈ L.lists (binOf need), fits s.mem need b.addr = false := by
        intro b hb
        simpa using List.find?_eq_none.mp hfind b hb
      exact Or.inr ⟨hmiss, h.walk_none hmiss⟩

variable (haccount : ∀ n stat, (account n stat).freelistLen = stat.freelistLen)
  (h : RepresentsIn shape binOf s L)

include haccount h in
/-- The scan has found the first block that is large enough. -/
theorem mallocWith_found {front back : List Block} {c : Block}
    (hsize : size + 40 ≤ 2 ^ 64)
    (hlist : L.lists (binOf (chunkNeed size)) = front ++ c :: back)
    (hfront : ∀ b ∈ front, b.size < chunkNeed size) (hfit : chunkNeed size ≤ c.size) :
    ∃ s' L', mallocWith binOf account mmap s size = some (s', c.addr + 4) ∧
      MallocCase binOf account mmap s L (chunkNeed size) s' (c.addr + 4) L' ∧
      RepresentsIn shape binOf s' L' ∧
      ∀ b ∈ L.blocks, b.used = true → SameOn s.mem s'.mem b.addr b.size := by
  obtain ⟨hge, hmod, _, _, hneed⟩ := chunkNeed_bounds hsize
  generalize hn : chunkNeed size = need at *
  have hc : c ∈ L.lists (binOf need) := by simp [hlist]
  obtain ⟨hrow, hfree, _⟩ := h.binned.mem_iff.mp hc
  obtain ⟨pre, post, hblocks⟩ := List.append_of_mem hrow
  have hwalk := h.walk_first hlist
    (fun b hb => by
      have hsmall := hfront b hb
      rw [h.fits_iff hneed (i := binOf need) (by simp [hlist, hb])]
      simp only [decide_eq_false_iff_not]
      omega)
    (by simpa [h.fits_iff hneed hc] using hfit)
  have h₁ := h.addScanSteps (front.length + 1)
  have hhead := h₁.head_eq hlist
  have htag : tagSize (load (addScanSteps s (front.length + 1)).mem c.addr 4) = c.size :=
    (h.threaded.tagged c hrow).tagSize_head
  have hscan : SameArena s (addScanSteps s (front.length + 1)) :=
    SameArena.of_mem_stat s _ _
  by_cases hsplit : need + 16 ≤ c.size
  · obtain ⟨s', heq, hrep, hframe, hstat, hsame⟩ :=
      splitBlock_spec haccount h₁ hblocks hlist hge hmod hsplit
    refine ⟨s', _, ?_, .split hge hmod hsplit hblocks hlist hfront hstat
      (hscan.trans hsame), hrep, hframe⟩
    simp only [mallocWith, hn, hwalk, hhead, htag, ptrAdd_of_lt hneed, if_pos hsplit, heq]
  · have hexact : c.size = need := by
      have := c.size_mod
      omega
    obtain ⟨s', heq, hrep, hframe, hstat, hsame⟩ :=
      wholeBlock_spec haccount h₁ hblocks hlist
    refine ⟨s', _, ?_, .whole hexact hblocks hlist hfront ?_ (hscan.trans hsame), hrep,
      hframe⟩
    · simp only [mallocWith, hn, hwalk, hhead, htag, ptrAdd_of_lt hneed, if_neg hsplit, heq]
    · rw [hstat, hexact]

include h in
/-- No listed block is large enough, and the scan says so. -/
theorem RepresentsIn.scan_misses (hsize : size + 40 ≤ 2 ^ 64)
    (hmiss : ∀ b ∈ L.lists (binOf (chunkNeed size)), b.size < chunkNeed size) :
    walk (nextFree s.mem) 0 (s.freeHead (binOf (chunkNeed size)))
        (fits s.mem (chunkNeed size)) walkFuel .head 0 =
      some ((L.lists (binOf (chunkNeed size))).length, none) := by
  obtain ⟨_, _, _, _, hneed⟩ := chunkNeed_bounds hsize
  apply h.walk_none
  intro b hb
  have hsmall := hmiss b hb
  rw [h.fits_iff hneed hb]
  simp only [decide_eq_false_iff_not]
  omega

/-- The scan misses exactly when no block of the list is large enough. -/
theorem RepresentsIn.scanMisses_iff (h : RepresentsIn shape binOf s L)
    (hsize : size + 40 ≤ 2 ^ 64) :
    ScanMisses binOf s size ↔
      ∀ b ∈ L.lists (binOf (chunkNeed size)), b.size < chunkNeed size := by
  have hneed := (chunkNeed_bounds hsize).2.2.2.2
  constructor
  · rintro ⟨steps, hmisses⟩
    rcases h.scan_cases (chunkNeed size) with ⟨_, _, _, _, _, _, hwalk⟩ | ⟨hmiss, _⟩
    · rw [hwalk] at hmisses
      simp at hmisses
    · intro b hb
      have hfits := hmiss b hb
      rw [h.fits_iff hneed hb] at hfits
      exact Nat.lt_of_not_le (of_decide_eq_false hfits)
  · exact fun hmiss => ⟨_, h.scan_misses hsize hmiss⟩

end Spec

section Shape

variable {mmap : Mmap} {s : Globals ι} {L : Layout ι} {size : Nat}
  (haccount : ∀ n stat, (account n stat).freelistLen = stat.freelistLen)
  (h : Represents binOf s L)

include haccount in
/-- The scan of `s₀` has found nothing, the region is mapped in `s`, and there is
room for the block. -/
theorem extendHeap_case (s₀ : Globals ι) (top : Nat) {need : Nat}
    (hrep : Represents binOf { s with heapHi := s.arenaCur } L)
    (hge : 16 ≤ need) (hmod : need % 16 = 0)
    (hmiss : ∀ b ∈ L.lists (binOf need), b.size < need)
    (hbase : s.arenaBase ≠ 0) (hwrap : s.arenaCur + need + padding L < 2 ^ 64)
    (hroom : s.arenaCur + need + padding L ≤ s.arenaEnd)
    (htop : (s₀.arenaBase ≠ 0 ∧ top = s₀.arenaCur ∧ s.arenaBase = s₀.arenaBase) ∨
      (s₀.arenaBase = 0 ∧ mmap s₀.mmapCalls = some top ∧ s.arenaBase = top))
    (hcur : s.arenaCur = top)
    (hstat : s.stat = (addScanSteps s₀ (L.lists (binOf need)).length).stat) :
    ∃ s' p L', extendHeap account mmap s need = (s', p) ∧
      MallocCase binOf account mmap s₀ L need s' p L' ∧
      Represents binOf s' L' ∧ ∀ b ∈ L.blocks, SameOn s.mem s'.mem b.addr b.size := by
  obtain ⟨s', heq, hrep', hframe, hstat', hcur', hlo, hbase', _⟩ :=
    extendHeap_room hrep hbase hge hmod hwrap haccount hroom
  refine ⟨s', _, _, heq, ?_, hrep', hframe⟩
  rw [hcur] at hcur' ⊢
  refine .extend hge hmod hmiss ?_ (by rw [hstat', hstat]) hcur' (by rw [hlo, hbase'])
  rw [hbase']
  exact htop

include haccount h in
/-- The scan has found nothing. -/
theorem mallocWith_missed (hsound : mmap.Sound) (hsize : size + 40 ≤ 2 ^ 64)
    (hmiss : ∀ b ∈ L.lists (binOf (chunkNeed size)), b.size < chunkNeed size)
    (hsafe : ArenaSafe mmap s (chunkNeed size)) :
    ∃ s' p L', mallocWith binOf account mmap s size = some (s', p) ∧
      MallocCase binOf account mmap s L (chunkNeed size) s' p L' ∧
      Represents binOf s' L' ∧
      ∀ b ∈ L.blocks, b.used = true → SameOn s.mem s'.mem b.addr b.size := by
  have hwalk := h.scan_misses hsize hmiss
  obtain ⟨hge, hmod, _, _, hneed⟩ := chunkNeed_bounds hsize
  generalize hn : chunkNeed size = need at *
  have h₁ := h.addScanSteps (L.lists (binOf need)).length
  generalize hs₁ : addScanSteps s (L.lists (binOf need)).length = s₁ at h₁
  have hmalloc : mallocWith binOf account mmap s size =
      some (extendHeap account mmap s₁ need) := by
    simp only [mallocWith, hn, hwalk, hs₁]
  have hstat₁ : s₁.stat = (addScanSteps s (L.lists (binOf need)).length).stat := by rw [hs₁]
  have hbase₁ : s₁.arenaBase = s.arenaBase := by rw [← hs₁]; rfl
  have hcur₁ : s₁.arenaCur = s.arenaCur := by rw [← hs₁]; rfl
  have hend₁ : s₁.arenaEnd = s.arenaEnd := by rw [← hs₁]; rfl
  have hcalls₁ : s₁.mmapCalls = s.mmapCalls := by rw [← hs₁]; rfl
  have hmem₁ : s₁.mem = s.mem := by rw [← hs₁]; rfl
  rw [hmalloc, ← hmem₁]
  by_cases hbase : s.arenaBase = 0
  · -- The region has yet to be mapped, so there are no blocks.
    have hnil := h.arena.unmapped hbase
    have hpad : padding L = 12 := by simp [padding, hnil]
    simp only [ArenaSafe, hbase, ↓reduceIte] at hsafe
    cases hmap : mmap s.mmapCalls with
    | none =>
        rw [hmap] at hsafe
        have hrefused : ∃ s' : Globals ι, extendHeap account mmap s₁ need = (s', 0) ∧
            Represents binOf s' L ∧ s'.stat = s₁.stat ∧ s'.arenaCur = s'.arenaBase := by
          cases hsecond : mmap (s.mmapCalls + 1) with
          | none =>
              exact extendHeap_unmapped h₁ hsound (hbase₁.trans hbase) (hcalls₁ ▸ hmap)
                (hcalls₁ ▸ hsecond)
          | some base =>
              rw [hsecond] at hsafe
              exact extendHeap_late h₁ (hsound _ _ hsecond) (hbase₁.trans hbase)
                (hcalls₁ ▸ hmap) (hcalls₁ ▸ hsecond) hsafe
        obtain ⟨s', heq, hrep, hstat, hcur⟩ := hrefused
        refine ⟨s', 0, L, by rw [heq], ?_, hrep, by simp [hnil]⟩
        exact .fail hmiss (Or.inr ⟨hbase, Or.inl hmap, hcur⟩) (hstat.trans hstat₁)
    | some base =>
        rw [hmap] at hsafe
        obtain hregion := hsound _ _ hmap
        have hinstall : Represents binOf (installed s₁ base) L :=
          h₁.install (hbase₁.trans hbase) hregion
        have hend : (installArena s₁ base).arenaEnd = base + arenaSize :=
          ptrAdd_of_lt hregion.2.2
        have hcur : (installArena s₁ base).arenaCur = base := rfl
        rw [extendHeap_install (hbase₁.trans hbase) (by omega) (hcalls₁ ▸ hmap)]
        by_cases hroom : base + need + 12 ≤ base + arenaSize
        · obtain ⟨s', p, L', heq, hcase, hrep, _⟩ := extendHeap_case haccount s
            base hinstall hge hmod hmiss (by change base ≠ 0; omega)
            (by rw [hpad, hcur]; omega) (by rw [hpad, hcur, hend]; omega)
            (Or.inr ⟨hbase, hmap, rfl⟩) hcur hstat₁
          exact ⟨s', p, L', by rw [heq], hcase, hrep, by simp [hnil]⟩
        · rw [extendHeap_full hinstall (by change base ≠ 0; omega) hge
            (by rw [hpad, hcur]; omega) (by rw [hpad, hcur, hend]; omega)]
          refine ⟨_, 0, L, rfl, ?_, hinstall, by simp [hnil]⟩
          exact .fail hmiss (Or.inr ⟨hbase, Or.inr (by omega), rfl⟩) hstat₁
  · have hpad := h.arena.padding_eq hbase
    simp only [ArenaSafe, hbase, ↓reduceIte, hpad] at hsafe
    have hbase' : s₁.arenaBase ≠ 0 := hbase₁ ▸ hbase
    have hsame : { s₁ with heapHi := s₁.arenaCur } = s₁ :=
      congrArg (fun top => { s₁ with heapHi := top }) (h₁.arena.top hbase').1.symm
    have htop : Represents binOf { s₁ with heapHi := s₁.arenaCur } L := hsame.symm ▸ h₁
    by_cases hroom : s.arenaCur + need + padding L ≤ s.arenaEnd
    · obtain ⟨s', p, L', heq, hcase, hrep, hframe⟩ := extendHeap_case haccount s
        s.arenaCur htop hge hmod hmiss hbase' (by rw [hcur₁]; exact hsafe)
        (by rw [hcur₁, hend₁]; exact hroom) (Or.inl ⟨hbase, rfl, hbase₁⟩) hcur₁ hstat₁
      exact ⟨s', p, L', by rw [heq], hcase, hrep, fun b hb _ => hframe b hb⟩
    · rw [extendHeap_full htop hbase' hge (by rw [hcur₁]; exact hsafe)
        (by rw [hcur₁, hend₁]; omega), hsame]
      refine ⟨s₁, 0, L, rfl, ?_, h₁, fun b _ _ => SameOn.refl _ _ _⟩
      exact .fail hmiss (Or.inl ⟨hbase, by omega, hs₁.symm⟩) hstat₁

include haccount h in
/-- `my_malloc` on a represented heap returns, does one of the four things, and
leaves every used block as it was. -/
theorem mallocWith_spec (hsound : mmap.Sound) (hsize : size + 40 ≤ 2 ^ 64)
    (hsafe : RequestSafe binOf mmap s size) :
    ∃ s' p L', mallocWith binOf account mmap s size = some (s', p) ∧
      MallocCase binOf account mmap s L (chunkNeed size) s' p L' ∧
      Represents binOf s' L' ∧
      ∀ b ∈ L.blocks, b.used = true → SameOn s.mem s'.mem b.addr b.size := by
  cases hfind : (L.lists (binOf (chunkNeed size))).find?
      (fun b => decide (chunkNeed size ≤ b.size)) with
  | some c =>
      obtain ⟨hfit, front, back, hlist, hfront⟩ := List.find?_eq_some_iff_append.mp hfind
      obtain ⟨s', L', hrest⟩ := mallocWith_found haccount h hsize hlist
        (fun b hb => by simpa using hfront b hb) (by simpa using hfit)
      exact ⟨s', _, L', hrest⟩
  | none =>
      have hmiss : ∀ b ∈ L.lists (binOf (chunkNeed size)), b.size < chunkNeed size := by
        intro b hb
        simpa using List.find?_eq_none.mp hfind b hb
      exact mallocWith_missed haccount h hsound hsize hmiss
        (hsafe ⟨_, h.scan_misses hsize hmiss⟩)

end Shape

end AllocSitter
