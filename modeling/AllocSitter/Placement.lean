/-
Where `my_malloc` puts a block: which listed block it takes, what becomes of the
rest of it, and when it turns to the arena.  `allocator.c` is compared with first
fit on the list as such, `segregated_allocator.c` with the search of the larger
bins that its design describes.
-/
import AllocSitter.RequestArithmetic

namespace AllocSitter

open ByteMemory LinkedChain Tiling

variable {ι : Type}

/-- Both tags of a block, with the flag they carry. -/
def TagsAt (m : Memory) (header size flag : Nat) : Prop :=
  load m header 4 = size + flag ∧ load m (header + size - 4) 4 = size + flag

section Takes

variable [DecidableEq ι]

/-- The lists without the block at `h` of `size` bytes, of which `need` are handed
out: what is left, if it is a block, goes in front of the list of its class. -/
def relisted (binOf : Nat → ι) (nodes : ι → List Nat) (h size need : Nat) (i : ι) : List Nat :=
  if need + 16 ≤ size ∧ binOf (size - need) = i then (h + need) :: (nodes i).erase h
  else (nodes i).erase h

/-- From `s` to `s'` the listed block at `h` has been handed out for `need` bytes. -/
structure Takes (binOf : Nat → ι) (s s' : Globals ι) (nodes : ι → List Nat)
    (need h : Nat) : Prop where
  arena : SameArena s s'
  used : TagsAt s'.mem h need 1
  rest : need + 16 ≤ blockSize s.mem h →
    TagsAt s'.mem (h + need) (blockSize s.mem h - need) 0
  whole : blockSize s.mem h < need + 16 → blockSize s.mem h = need
  lists : ∀ i, Linked (nextFree s'.mem) 0 (s'.freeHead i)
    (relisted binOf nodes h (blockSize s.mem h) need i)
  sizes : ∀ i, ∀ a ∈ nodes i, a ≠ h → blockSize s'.mem a = blockSize s.mem a

variable {binOf : Nat → ι} {account : Nat → AllocStat → AllocStat} {mmap : Mmap}
  {s s' : Globals ι} {L L' : Layout ι}

theorem RepresentsIn.blockSize_eq {shape : Globals ι → List Block → Prop}
    (h : RepresentsIn shape binOf s L) {b : Block} (hb : b ∈ L.blocks) :
    blockSize s.mem b.addr = b.size :=
  (h.threaded.tagged b hb).tagSize_head

/-- Taking a block off its list, in terms of the addresses. -/
theorem RepresentsIn.chains_erase (h : Represents binOf s L) {i : ι} {front back : List Block}
    {c : Block} (hlist : L.lists i = front ++ c :: back) (j : ι) :
    Function.update L.chains i ((front ++ back).map Block.addr) j =
      (L.chains j).erase c.addr := by
  have hlinked := h.threaded.linked i
  have hc : c.addr ∈ L.chains i := List.mem_map_of_mem (by simp [hlist])
  by_cases hj : j = i
  · subst hj
    have hchain : L.chains j = front.map Block.addr ++ c.addr :: back.map Block.addr := by
      simp [Layout.chains, hlist]
    rw [hchain] at hlinked
    rw [Function.update_self, hchain, hlinked.erase_eq, List.map_append]
  · rw [Function.update_of_ne hj, List.erase_of_not_mem]
    exact fun hmem => hj (h.threaded.apart j i _ hmem hc)

/-- A listed block other than the one taken keeps its size. -/
theorem RepresentsIn.blockSize_kept (h : Represents binOf s L) (h' : Represents binOf s' L')
    {c : Block} {pre mid post : List Block} (hblocks : L.blocks = pre ++ c :: post)
    (hblocks' : L'.blocks = pre ++ mid ++ post) {i : ι} {a : Nat} (ha : a ∈ L.chains i)
    (hne : a ≠ c.addr) : blockSize s'.mem a = blockSize s.mem a := by
  obtain ⟨b, hb, rfl⟩ := List.mem_map.mp ha
  have hrow := (h.binned.mem_iff.mp hb).1
  have hrow' : b ∈ L'.blocks := by
    rw [hblocks] at hrow
    rw [hblocks']
    exact mem_row_of_mem (mem_row_of_ne hrow fun heq => hne (by rw [heq]))
  rw [h.blockSize_eq hrow, h'.blockSize_eq hrow']

/-- The block at the place where the lists have `c` is handed out. -/
theorem RepresentsIn.takes (h : Represents binOf s L) (h' : Represents binOf s' L')
    (need : Nat) {pre mid post : List Block} {c u : Block}
    (hblocks : L.blocks = pre ++ c :: post) (hblocks' : L'.blocks = pre ++ mid ++ post)
    (hu : u ∈ mid) (haddr : u.addr = c.addr) (hsize : u.size = need) (hused : u.used = true)
    (hwhole : c.size < need + 16 → c.size = need)
    (hrest : ∀ hfit : need + 16 ≤ c.size, ∃ hmod, c.rest need hmod hfit ∈ mid)
    (hchains : L'.chains = relisted binOf L.chains c.addr c.size need)
    (hsame : SameArena s s') : Takes binOf s s' L.chains need c.addr := by
  have hc : c ∈ L.blocks := by simp [hblocks]
  have hin : ∀ b ∈ mid, b.Tagged s'.mem := by
    intro b hb
    apply h'.threaded.tagged
    rw [hblocks']
    simp [hb]
  refine ⟨hsame, ?_, ?_, ?_, ?_, ?_⟩
  · have htags := hin u hu
    have hfoot := u.foot_of_used hused
    rw [Block.Tagged, Block.head, Block.tail, haddr, hsize, hused, hfoot] at htags
    exact htags
  · intro hfit
    rw [h.blockSize_eq hc] at hfit ⊢
    obtain ⟨hmod, hmem⟩ := hrest hfit
    exact hin _ hmem
  · rw [h.blockSize_eq hc]
    exact hwhole
  · intro i
    rw [h.blockSize_eq hc, ← hchains]
    exact h'.threaded.linked i
  · intro i a ha hne
    exact h.blockSize_kept h' hblocks hblocks' ha hne

/-- What a request comes to that some block of its list has room for. -/
theorem MallocCase.takes {need p : Nat}
    (hscan : ∀ n stat, (account n stat).scanSteps = stat.scanSteps)
    (h : Represents binOf s L) (h' : Represents binOf s' L')
    (hcase : MallocCase binOf account mmap s L need s' p L')
    (hfit : ∃ b ∈ L.lists (binOf need), need ≤ b.size) :
    ∃ front c back, L.lists (binOf need) = front ++ c :: back ∧
      (∀ b ∈ front, b.size < need) ∧ need ≤ c.size ∧ p = c.addr + 4 ∧
      Takes binOf s s' L.chains need c.addr ∧
      s'.stat.scanSteps = ptrAdd s.stat.scanSteps (front.length + 1) := by
  obtain ⟨b, hb, hroom⟩ := hfit
  cases hcase with
  | @split pre post front back c hge hmod hcut hblocks hlist hfront hstat hsame =>
      refine ⟨front, c, back, hlist, hfront, by omega, rfl, ?_, ?_⟩
      · apply h.takes h' need hblocks rfl List.mem_cons_self rfl rfl rfl (fun hlt => by omega)
          (fun _ => ⟨hmod, by simp⟩) _ hsame
        rw [chains_push, chains_update]
        funext i
        have herase := h.chains_erase hlist
        simp only [Block.rest, Block.fresh, relisted, hcut, true_and]
        by_cases hi : binOf (c.size - need) = i
        · subst hi
          rw [if_pos rfl, Function.update_self]
          exact congrArg _ (herase _)
        · rw [if_neg hi, Function.update_of_ne (Ne.symm hi)]
          exact herase i
      · rw [hstat, hscan]
        rfl
  | @whole pre post front back c hsize hblocks hlist hfront hstat hsame =>
      refine ⟨front, c, back, hlist, hfront, by omega, rfl, ?_, ?_⟩
      · apply h.takes h' need hblocks rfl (List.mem_singleton_self _) rfl hsize rfl
          (fun _ => hsize) (fun hcut => by omega) _ hsame
        rw [chains_update]
        funext i
        have hnocut : ¬ (need + 16 ≤ c.size ∧ binOf (c.size - need) = i) := by omega
        rw [relisted, if_neg hnocut]
        exact h.chains_erase hlist i
      · rw [hstat]
        exact hscan _ _
  | extend hge hmod hmiss htop hstat hcur hlo =>
      have hlt := hmiss b hb
      omega
  | fail hmiss hwhy hstat =>
      have hlt := hmiss b hb
      omega

/-- `my_malloc` then takes the first of them. -/
theorem RepresentsIn.takes_first
    (haccount : ∀ n stat, (account n stat).freelistLen = stat.freelistLen)
    (hscan : ∀ n stat, (account n stat).scanSteps = stat.scanSteps)
    (h : Represents binOf s L) (mmap : Mmap) {size : Nat} (hsize : size + 40 ≤ 2 ^ 64)
    (hfit : ∃ b ∈ L.lists (binOf (chunkNeed size)), chunkNeed size ≤ b.size) :
    ∃ s' front c back, mallocWith binOf account mmap s size = some (s', c.addr + 4) ∧
      L.lists (binOf (chunkNeed size)) = front ++ c :: back ∧
      (∀ b ∈ front, b.size < chunkNeed size) ∧ chunkNeed size ≤ c.size ∧
      Takes binOf s s' L.chains (chunkNeed size) c.addr ∧
      s'.stat.scanSteps = ptrAdd s.stat.scanSteps (front.length + 1) := by
  obtain ⟨b, hb, hroom⟩ := hfit
  have hfound : ((L.lists (binOf (chunkNeed size))).find?
      fun b => decide (chunkNeed size ≤ b.size)).isSome := by
    rw [List.find?_isSome]
    exact ⟨b, hb, decide_eq_true hroom⟩
  obtain ⟨d, hfind⟩ := Option.isSome_iff_exists.mp hfound
  obtain ⟨hd, before, after, hlist, hbefore⟩ := List.find?_eq_some_iff_append.mp hfind
  obtain ⟨s', L', heq, hcase, hrep, _⟩ := mallocWith_found haccount h hsize hlist
    (fun b hb => by simpa using hbefore b hb) (of_decide_eq_true hd)
  obtain ⟨front, c, back, hlist', hfront, hle, hp, htakes⟩ :=
    hcase.takes hscan h hrep ⟨b, hb, hroom⟩
  rw [hp] at heq
  exact ⟨s', front, c, back, heq, hlist', hfront, hle, htakes⟩

end Takes

namespace FirstFit

/-- First fit on a list of blocks: how many are looked at, and which one is taken. -/
def firstFit (sizeOf : Nat → Nat) (need : Nat) : List Nat → Nat × Option Nat
  | [] => (0, none)
  | h :: rest =>
      if need ≤ sizeOf h then (1, some h)
      else ((firstFit sizeOf need rest).1 + 1, (firstFit sizeOf need rest).2)

theorem firstFit_found {sizeOf : Nat → Nat} {need h : Nat} {front back : List Nat}
    (hfront : ∀ a ∈ front, sizeOf a < need) (hfit : need ≤ sizeOf h) :
    firstFit sizeOf need (front ++ h :: back) = (front.length + 1, some h) := by
  induction front with
  | nil => simp [firstFit, hfit]
  | cons a front ih =>
      have hlt := hfront a List.mem_cons_self
      rw [List.cons_append, firstFit, if_neg (by omega),
        ih fun b hb => hfront b (List.mem_cons_of_mem a hb)]
      rfl

theorem firstFit_none {sizeOf : Nat → Nat} {need : Nat} {nodes : List Nat}
    (hmiss : ∀ a ∈ nodes, sizeOf a < need) :
    firstFit sizeOf need nodes = (nodes.length, none) := by
  induction nodes with
  | nil => rfl
  | cons a rest ih =>
      have hlt := hmiss a List.mem_cons_self
      rw [firstFit, if_neg (by omega), ih fun b hb => hmiss b (List.mem_cons_of_mem a hb)]
      rfl

section Chains

variable {s : State} {L : Layout Unit} {need : Nat}

/-- First fit on the list of a well-formed heap. -/
theorem firstFit_chains (h : Represents theList s L) {front back : List Block} {c : Block}
    (hlist : L.lists () = front ++ c :: back) (hfront : ∀ b ∈ front, b.size < need)
    (hfit : need ≤ c.size) :
    firstFit (blockSize s.mem) need (L.chains ()) = (front.length + 1, some c.addr) := by
  have hsizes : ∀ b ∈ L.lists (), blockSize s.mem b.addr = b.size :=
    fun b hb => h.blockSize_eq (h.binned.mem_iff.mp hb).1
  rw [hlist] at hsizes
  rw [Layout.chains, hlist, List.map_append, List.map_cons]
  rw [firstFit_found _ (by rw [hsizes c (by simp)]; exact hfit), List.length_map]
  intro a ha
  obtain ⟨b, hb, rfl⟩ := List.mem_map.mp ha
  rw [hsizes b (by simp [hb])]
  exact hfront b hb

theorem firstFit_chains_none (h : Represents theList s L)
    (hmiss : ∀ b ∈ L.lists (), b.size < need) :
    firstFit (blockSize s.mem) need (L.chains ()) = ((L.chains ()).length, none) := by
  apply firstFit_none
  intro a ha
  obtain ⟨b, hb, rfl⟩ := List.mem_map.mp ha
  rw [h.blockSize_eq (h.binned.mem_iff.mp hb).1]
  exact hmiss b hb

end Chains

/-- There is no mapping to be had, or no room for the request below the end of it. -/
def NoRoom (mmap : Mmap) (s : State) (need : Nat) : Prop :=
  if s.arenaBase = 0 then mmap s.mmapCalls = none ∨ arenaSize < need + 12
  else s.arenaEnd < s.arenaCur + need + ptrSub 12 s.arenaCur % 16

/-- The new block lies at the old `heap_hi`, and the first one at the first address
of the region that is 12 modulo 16. -/
structure Placed (s s' : State) (need header : Nat) : Prop where
  used : TagsAt s'.mem header need 1
  top : s'.heapHi = header + need
  place : if s.heapLo = 0 then
      header % 16 = 12 ∧ s'.arenaBase ≤ header ∧ header < s'.arenaBase + 16
    else header = s.heapHi

/-- From `s` to `s'` the request has been passed to the arena, with the result `p`,
and the list is as it was. -/
structure Extends (mmap : Mmap) (s s' : State) (nodes : List Nat) (need p : Nat) : Prop where
  list : Linked (nextFree s'.mem) 0 (s'.freeHead ()) nodes
  sizes : ∀ a ∈ nodes, blockSize s'.mem a = blockSize s.mem a
  null : p = 0 ↔ NoRoom mmap s need
  placed : p ≠ 0 → ∃ header, p = header + 4 ∧ Placed s s' need header

/-- `my_malloc(size)` does what first fit on the list says. -/
def Follows (mmap : Mmap) (s : State) (size : Nat) (nodes : List Nat) : Prop :=
  ∃ s' p, myMalloc mmap s size = some (s', p) ∧
    s'.stat.scanSteps = ptrAdd s.stat.scanSteps
      (firstFit (blockSize s.mem) (chunkNeed size) nodes).1 ∧
    match (firstFit (blockSize s.mem) (chunkNeed size) nodes).2 with
    | some h => p = h + 4 ∧ Takes theList s s' (fun _ => nodes) (chunkNeed size) h
    | none => Extends mmap s s' nodes (chunkNeed size) p

section Refinement

variable {mmap : Mmap} {s s' : State} {L L' : Layout Unit} {size need p : Nat}

/-- A request that does not reach the arena safely has no room there, and is not
refused. -/
theorem not_refused (hsound : mmap.Sound) (h : Represents theList s L)
    (hneed : need ≤ 2 ^ 63 + 16) (hharm : ¬ ArenaSafe mmap s need) :
    NoRoom mmap s need ∧ ¬ ArenaRefuses mmap s need := by
  unfold ArenaSafe at hharm
  unfold NoRoom ArenaRefuses
  by_cases hbase : s.arenaBase = 0
  · simp only [hbase, ↓reduceIte] at hharm ⊢
    cases hfirst : mmap s.mmapCalls with
    | some base =>
        obtain ⟨_, _, hregion⟩ := hsound _ _ hfirst
        simp only [hfirst] at hharm
        simp only [reduceCtorEq, false_or]
        unfold ptrAdd arenaSize at *
        omega
    | none =>
        simp only [hfirst] at hharm
        cases hsecond : mmap (s.mmapCalls + 1) with
        | some base =>
            obtain ⟨_, _, hregion⟩ := hsound _ _ hsecond
            simp only [hsecond] at hharm
            simp only [true_or, true_and]
            unfold ptrAdd arenaSize at *
            omega
        | none => simp [hsecond] at hharm
  · simp only [hbase, ↓reduceIte] at hharm ⊢
    obtain ⟨_, _, hregion, hend⟩ := h.arena.region hbase
    have hcur := (h.arena.top hbase).2
    have hpad := Nat.mod_lt (ptrSub 12 s.arenaCur) (show 0 < 16 by decide)
    generalize ptrSub 12 s.arenaCur % 16 = pad at *
    unfold ptrAdd arenaSize at *
    omega

theorem sizes_kept (h : Represents theList s L) (h' : Represents theList s' L')
    (hkept : ∀ b ∈ L.blocks, b ∈ L'.blocks) :
    ∀ a ∈ L.chains (), blockSize s'.mem a = blockSize s.mem a := by
  intro a ha
  obtain ⟨b, hb, rfl⟩ := List.mem_map.mp ha
  have hrow := (h.binned.mem_iff.mp hb).1
  rw [h.blockSize_eq hrow, h'.blockSize_eq (hkept b hrow)]

/-- A granted request: there was room for it, and it lies where it should. -/
theorem placed_of_extend {top : Nat} (h : Represents theList s L)
    (h' : Represents theList s' L') (hge : 16 ≤ need) (hmod : need % 16 = 0)
    (hblocks' : L'.blocks = L.blocks ++ [Block.fresh (top + padding L) need true hge hmod])
    (htop : (s.arenaBase ≠ 0 ∧ top = s.arenaCur ∧ s'.arenaBase = s.arenaBase) ∨
      (s.arenaBase = 0 ∧ mmap s.mmapCalls = some top ∧ s'.arenaBase = top))
    (hcur : s'.arenaCur = top + need + padding L) :
    ¬ NoRoom mmap s need ∧ Placed s s' need (top + padding L) := by
  have hne' : L'.blocks ≠ [] := by simp [hblocks']
  have hbase' := h'.room.base_ne_zero hne'
  obtain ⟨hpage', hlow', _, hend'⟩ := h'.arena.region hbase'
  obtain ⟨hhi', hcur'⟩ := h'.arena.top hbase'
  have htags : TagsAt s'.mem (top + padding L) need 1 :=
    h'.threaded.tagged (Block.fresh (top + padding L) need true hge hmod) (by simp [hblocks'])
  by_cases hnil : L.blocks = []
  · have hpad : padding L = 12 := by simp [padding, hnil]
    obtain ⟨hlo, huntouched⟩ := h.arena.untouched hnil
    have hbegin : top = s'.arenaBase := by omega
    refine ⟨?_, htags, by omega, ?_⟩
    · unfold NoRoom
      rcases htop with ⟨hbase, _, hsame⟩ | ⟨hbase, hmap, _⟩
      · obtain ⟨_, _, _, hend⟩ := h.arena.region hbase
        rw [if_neg hbase, h.arena.padding_eq hbase]
        omega
      · rw [if_pos hbase, hmap]
        simp only [reduceCtorEq, false_or]
        omega
    · rw [if_pos hlo]
      omega
  · have hpad : padding L = 0 := by simp [padding, hnil]
    have hbase := h.room.base_ne_zero hnil
    obtain ⟨_, htop', hsame⟩ : s.arenaBase ≠ 0 ∧ top = s.arenaCur ∧
        s'.arenaBase = s.arenaBase := htop.resolve_right fun hunmapped => hbase hunmapped.1
    obtain ⟨_, hlow, _, hend⟩ := h.arena.region hbase
    have hhi := (h.arena.top hbase).1
    have hlo := (h.arena.tiles hnil).1
    refine ⟨?_, htags, by omega, ?_⟩
    · unfold NoRoom
      rw [if_neg hbase, h.arena.padding_eq hbase]
      omega
    · rw [if_neg (by omega)]
      omega

/-- What a request comes to that no block of the list has room for. -/
theorem extends_of_case (h : Represents theList s L) (h' : Represents theList s' L')
    (hcase : MallocCase theList (fun _ stat => stat) mmap s L need s' p L')
    (hmiss : ∀ b ∈ L.lists (), b.size < need) :
    Extends mmap s s' (L.chains ()) need p ∧
      s'.stat.scanSteps = ptrAdd s.stat.scanSteps (L.chains ()).length := by
  have hlength : (L.chains ()).length = (L.lists ()).length := List.length_map _
  rw [hlength]
  cases hcase with
  | @split pre post front back c _ _ hcut _ hlist =>
      have hlt := hmiss c (by rw [hlist]; simp)
      omega
  | @whole pre post front back c hsize _ hlist =>
      have hlt := hmiss c (by rw [hlist]; simp)
      omega
  | extend hge hmod _ htop hstat hcur _ =>
      obtain ⟨hroom, hplaced⟩ := placed_of_extend h h' hge hmod rfl htop hcur
      refine ⟨⟨h'.threaded.linked (), ?_, ?_, ?_⟩, by rw [hstat]; rfl⟩
      · exact sizes_kept h h' fun b hb => List.mem_append_left _ hb
      · exact iff_of_false (by omega) hroom
      · exact fun _ => ⟨_, rfl, hplaced⟩
  | fail _ hwhy hstat =>
      refine ⟨⟨h'.threaded.linked (), ?_, ?_, fun hp => absurd rfl hp⟩, by rw [hstat]; rfl⟩
      · exact sizes_kept h h' fun b hb => hb
      · refine iff_of_true rfl ?_
        unfold NoRoom
        rcases hwhy with ⟨hbase, hfull, _⟩ | ⟨hbase, hwhy, _⟩
        · rw [if_neg hbase, h.arena.padding_eq hbase]
          exact hfull
        · rw [if_pos hbase]
          exact hwhy

/-- A request that misses the list and is not refused does not return `NULL`. -/
theorem granted_ne_null (hsound : mmap.Sound) (h : Represents theList s L)
    (hscan : ScanMisses theList s size) (hgrants : ¬ ArenaRefuses mmap s (chunkNeed size))
    (heq : myMalloc mmap s size = some (s', p)) : p ≠ 0 := by
  rcases mallocWith_cases (fun _ stat => stat) mmap h size with
    ⟨_, _, _, hfound, _⟩ | ⟨_, _, hmalloc⟩
  · exact absurd hscan hfound
  · have h₁ := h.addScanSteps (L.lists (theList (chunkNeed size))).length
    rcases extendHeap_outcome (fun _ stat => stat) hsound h₁ (chunkNeed_le size) with
      ⟨hrefuses, _⟩ | ⟨_, s₁, header, m, hextend, _⟩
    · exact absurd hrefuses hgrants
    · rw [hextend] at hmalloc
      have hresult := Option.some.inj (heq.symm.trans hmalloc)
      rw [(Prod.mk.inj hresult).2]
      omega

/-- In a well-formed heap `my_malloc` follows first fit exactly for the requests
that reach the arena safely, if they reach it. -/
theorem follows_iff (hsound : mmap.Sound) (h : Represents theList s L) (hsize : size ≤ 2 ^ 63) :
    Follows mmap s size (L.chains ()) ↔ RequestSafe theList mmap s size := by
  have hbound : size + 40 ≤ 2 ^ 64 := by omega
  have hneed : chunkNeed size ≤ 2 ^ 63 + 16 := by
    unfold chunkNeed tagSize
    omega
  by_cases hfit : ∃ b ∈ L.lists (), chunkNeed size ≤ b.size
  · obtain ⟨s', front, c, back, heq, hlist, hfront, hroom, htakes, hscan⟩ :=
      h.takes_first (fun _ _ => rfl) (fun _ _ => rfl) mmap hbound hfit
    have hc : c ∈ L.lists () := by rw [hlist]; simp
    have hfound := firstFit_chains h hlist hfront hroom
    refine iff_of_true ⟨s', _, heq, ?_, ?_⟩ ?_
    · rw [hfound]
      exact hscan
    · rw [hfound]
      exact ⟨rfl, htakes⟩
    · intro hmisses
      have hlt := (h.scanMisses_iff hbound).mp hmisses c hc
      omega
  · have hmiss : ∀ b ∈ L.lists (), b.size < chunkNeed size := by
      intro b hb
      by_contra hle
      exact hfit ⟨b, hb, by omega⟩
    have hnone := firstFit_chains_none h hmiss
    constructor
    · rintro ⟨s', p, heq, _, hextends⟩ hscan
      rw [hnone] at hextends
      by_contra hharm
      obtain ⟨hfull, hgrants⟩ := not_refused hsound h hneed hharm
      have hp := hextends.null.mpr hfull
      have hne := granted_ne_null hsound h hscan hgrants heq
      exact hne hp
    · intro hsafe
      obtain ⟨s', p, L', heq, hcase, h', _⟩ := myMalloc_spec hsound h hbound hsafe
      obtain ⟨hextends, hscan⟩ := extends_of_case h h' hcase hmiss
      refine ⟨s', p, heq, ?_, ?_⟩
      · rw [hnone]
        exact hscan
      · rw [hnone]
        exact hextends

end Refinement

/-- In every state that admitted calls lead to, for every size of at most `2 ^ 63`. -/
theorem first_fit_refinement {mmap : Mmap} (hsound : mmap.Sound) {w : Client Unit}
    (hreach : Runs.Reach (Client.step (api mmap)) (Admits mmap) (Client.initial Unit) w) :
    ∃ nodes, Linked (nextFree w.heap.mem) 0 (w.heap.freeHead ()) nodes ∧
      ∀ size ≤ 2 ^ 63,
        (Follows mmap w.heap size nodes ↔ RequestSafe theList mmap w.heap size) := by
  obtain ⟨L, h, _⟩ := reach_inv hsound hreach
  exact ⟨L.chains (), h.threaded.linked (), fun size hsize => follows_iff hsound h hsize⟩

/-- A block of 112 bytes is free, and 48 of them are asked for. -/
theorem first_fit_refinement_example :
    ∃ w, Runs.run (Client.step (api lowRegion)) (Client.initial Unit)
        [.malloc 100, .malloc 8, .free 4112] = some w ∧
      Follows lowRegion w.heap 40 [4108] := by
  have hfacts : (Runs.run (Client.step (api lowRegion)) (Client.initial Unit)
      [.malloc 100, .malloc 8, .free 4112]).map (fun w => (w.heap.freeHead (),
        nextFree w.heap.mem 4108, decide (RequestSafe theList lowRegion w.heap 40))) =
      some (4108, 0, true) := by decide +kernel
  obtain ⟨w, hrun, hw⟩ := Option.map_eq_some_iff.mp hfacts
  simp only [Prod.mk.injEq] at hw
  obtain ⟨hhead, hnext, hsafe⟩ := hw
  have hreach : Runs.Reach (Client.step (api lowRegion)) (Admits lowRegion)
      (Client.initial Unit) w := .of_run .start (by decide +kernel) hrun
  obtain ⟨nodes, hlinked, hfollows⟩ := first_fit_refinement lowRegion_sound hreach
  have hlist : Linked (nextFree w.heap.mem) 0 (w.heap.freeHead ()) [4108] := by
    rw [linked_cons, hhead, hnext]
    exact ⟨rfl, by decide, linked_nil.mpr rfl⟩
  refine ⟨w, hrun, ?_⟩
  rw [hlist.unique hlinked]
  exact (hfollows 40 (by decide)).mpr (of_decide_eq_true hsafe)

/-- The first mapping fails and the second does not: the first block lies at 4109,
which is 13 modulo 16. -/
theorem first_fit_refinement_fails : lateRegion.Sound ∧
    Linked (nextFree (Client.initial Unit).heap.mem) 0
      ((Client.initial Unit).heap.freeHead ()) [] ∧
    (myMalloc lateRegion (Client.initial Unit).heap 0).map Prod.snd = some 4113 ∧
    ¬ Follows lateRegion (Client.initial Unit).heap 0 [] := by
  have hfact : (myMalloc lateRegion (Client.initial Unit).heap 0).map Prod.snd =
      some 4113 := by decide +kernel
  refine ⟨lateRegion_sound, linked_nil.mpr rfl, hfact, ?_⟩
  rintro ⟨s', p, heq, _, hextends⟩
  rw [heq] at hfact
  have hp : p = 4113 := Option.some.inj hfact
  have hextends : Extends lateRegion (Client.initial Unit).heap s' [] (chunkNeed 0) p := hextends
  obtain ⟨header, hheader, hplaced⟩ := hextends.placed (by omega)
  have hplace := hplaced.place
  rw [if_pos (show (Client.initial Unit).heap.heapLo = 0 from rfl)] at hplace
  omega

end FirstFit

namespace Segregated

/-- `my_malloc(size)` returns, and if a block of its bin or of a larger one has room
for the request, such a block is what it hands out. -/
def ReusesBins (mmap : Mmap) (s : State) (size : Nat) (nodes : Bin → List Nat) : Prop :=
  ∃ s' p, myMalloc mmap s size = some (s', p) ∧
    ((∃ i h, sizeToBin (chunkNeed size) ≤ i ∧ h ∈ nodes i ∧ chunkNeed size ≤ blockSize s.mem h) →
      ∃ i h, sizeToBin (chunkNeed size) ≤ i ∧ h ∈ nodes i ∧
        chunkNeed size ≤ blockSize s.mem h ∧ p = h + 4 ∧
        Takes sizeToBin s s' nodes (chunkNeed size) h)

/-- A bin that is at most both of two is at most the one that is chosen. -/
theorem le_choice {p : Prop} [Decidable p] {i j k : Bin} (hj : i ≤ j) (hk : i ≤ k) :
    i ≤ if p then j else k := by
  split
  · exact hj
  · exact hk

/-- One test of `size_to_bin`, taken for a smaller and for a larger size. -/
theorem choice_mono {a b bound : Nat} (hab : a ≤ b) {i j k : Bin} (hi : i ≤ k) (hjk : j ≤ k) :
    (if a ≤ bound then i else j) ≤ if b ≤ bound then i else k := by
  by_cases hb : b ≤ bound
  · rw [if_pos hb, if_pos (Nat.le_trans hab hb)]
  · rw [if_neg hb]
    split
    · exact hi
    · exact hjk

theorem sizeToBin_mono : Monotone sizeToBin := by
  intro a b hab
  unfold sizeToBin
  repeat' first | apply choice_mono hab | apply le_choice
  all_goals decide

theorem liveAdd_scanSteps (n : Nat) (stat : AllocStat) :
    (liveAdd n stat).scanSteps = stat.scanSteps := by
  unfold liveAdd
  dsimp only
  split <;> rfl

variable {mmap : Mmap} {s : State} {L : Layout Bin} {size : Nat}

/-- `my_malloc` looks into its own bin only. -/
theorem reusesBins_iff (hsound : mmap.Sound) (h : Represents sizeToBin s L)
    (hsize : size + 40 ≤ 2 ^ 64) :
    ReusesBins mmap s size L.chains ↔
      (∃ a ∈ L.chains (sizeToBin (chunkNeed size)), chunkNeed size ≤ blockSize s.mem a) ∨
        ∀ i, sizeToBin (chunkNeed size) < i → L.chains i = [] := by
  have hblock : ∀ {i a}, a ∈ L.chains i → ∃ b ∈ L.lists i, b.addr = a ∧
      b ∈ L.blocks ∧ blockSize s.mem a = b.size ∧ sizeToBin b.size = i := by
    intro i a ha
    obtain ⟨b, hb, rfl⟩ := List.mem_map.mp ha
    obtain ⟨hrow, _, hbin⟩ := h.binned.mem_iff.mp hb
    exact ⟨b, hb, rfl, hrow, h.blockSize_eq hrow, hbin⟩
  by_cases hown : ∃ a ∈ L.chains (sizeToBin (chunkNeed size)),
      chunkNeed size ≤ blockSize s.mem a
  · refine iff_of_true ?_ (Or.inl hown)
    obtain ⟨a, ha, hroom⟩ := hown
    obtain ⟨b, hb, _, _, hbsize, _⟩ := hblock ha
    obtain ⟨s', front, c, back, heq, hlist, _, hfit, htakes, _⟩ := h.takes_first
      liveAdd_freelistLen liveAdd_scanSteps mmap hsize ⟨b, hb, by omega⟩
    have hc : c ∈ L.lists (sizeToBin (chunkNeed size)) := by simp [hlist]
    refine ⟨s', _, heq, fun _ => ⟨_, c.addr, le_refl _, List.mem_map_of_mem hc, ?_, rfl, htakes⟩⟩
    rw [h.blockSize_eq (h.binned.mem_iff.mp hc).1]
    exact hfit
  · rcases mallocWith_cases liveAdd mmap h size with ⟨c, hc, hfits, _⟩ | ⟨_, _, hmalloc⟩
    · rw [h.fits_iff (chunkNeed_bounds hsize).2.2.2.2 hc] at hfits
      refine absurd ⟨c.addr, List.mem_map_of_mem hc, ?_⟩ hown
      rw [h.blockSize_eq (h.binned.mem_iff.mp hc).1]
      exact of_decide_eq_true hfits
    · constructor
      · rintro ⟨s', p, heq, hreuses⟩
        refine Or.inr fun i hi => ?_
        by_contra hne
        obtain ⟨a, ha⟩ := List.exists_mem_of_ne_nil _ hne
        obtain ⟨b, _, _, _, hbsize, hbin⟩ := hblock ha
        -- The bins are ordered by size, so a block of a larger bin is large enough.
        have hlarge : chunkNeed size ≤ blockSize s.mem a := by
          by_contra hlt
          have hmono := sizeToBin_mono (show b.size ≤ chunkNeed size by omega)
          rw [hbin] at hmono
          exact absurd hi (not_lt.mpr hmono)
        obtain ⟨j, a', _, ha', _, hp, _⟩ := hreuses ⟨i, a, le_of_lt hi, ha, hlarge⟩
        obtain ⟨d, _, rfl, hd, _⟩ := hblock ha'
        obtain ⟨_, hbelow, _⟩ := h.room.bounds hd
        have hge := d.size_ge
        have h₁ := h.addScanSteps (L.lists (sizeToBin (chunkNeed size))).length
        rcases extendHeap_outcome liveAdd hsound h₁ (chunkNeed_le size) with
          ⟨_, hnull⟩ | ⟨_, s₁, header, m, hextend, hgranted⟩
        · have hzero : p = 0 :=
            (congrArg Prod.snd (Option.some.inj (heq.symm.trans hmalloc))).trans hnull
          omega
        · rw [hextend] at hmalloc
          have hresult := Option.some.inj (heq.symm.trans hmalloc)
          have hheader := (Prod.mk.inj hresult).2
          have habove : s.arenaCur ≤ header := hgranted.above
          omega
      · rintro (hfit | hempty)
        · exact absurd hfit hown
        · refine ⟨_, _, hmalloc, ?_⟩
          rintro ⟨i, a, hle, ha, hroom⟩
          by_cases heq : sizeToBin (chunkNeed size) = i
          · rw [← heq] at ha
            exact absurd ⟨a, ha, hroom⟩ hown
          · rw [hempty i (lt_of_le_of_ne hle heq)] at ha
            simp at ha

/-- In every state that admitted calls lead to, for every size of at most `2 ^ 63`:
the design is met exactly when the bin of the request has a block for it, or all
larger bins are empty. -/
theorem bin_reuse {mmap : Mmap} (hsound : mmap.Sound) {w : Client Bin}
    (hreach : Runs.Reach (Client.step (api mmap)) (Admits mmap) (Client.initial Bin) w) :
    ∃ nodes : Bin → List Nat,
      (∀ i, Linked (nextFree w.heap.mem) 0 (w.heap.freeHead i) (nodes i)) ∧
      ∀ size ≤ 2 ^ 63, (ReusesBins mmap w.heap size nodes ↔
        (∃ h ∈ nodes (sizeToBin (chunkNeed size)), chunkNeed size ≤ blockSize w.heap.mem h) ∨
          ∀ i, sizeToBin (chunkNeed size) < i → nodes i = []) := by
  obtain ⟨L, h, _⟩ := reach_inv hsound hreach
  exact ⟨L.chains, h.threaded.linked, fun size hsize => reusesBins_iff hsound h (by omega)⟩

/-- A block of 112 bytes is free, and as many are asked for. -/
theorem bin_reuse_example :
    ∃ w, ∃ nodes : Bin → List Nat,
      Runs.run (Client.step (api lowRegion)) (Client.initial Bin) [.malloc 100, .free 4112] =
        some w ∧
      (∀ i, Linked (nextFree w.heap.mem) 0 (w.heap.freeHead i) (nodes i)) ∧
      ReusesBins lowRegion w.heap 100 nodes := by
  have hfacts : (Runs.run (Client.step (api lowRegion)) (Client.initial Bin)
      [.malloc 100, .free 4112]).map (fun w => (w.heap.freeHead 5,
        nextFree w.heap.mem 4108, blockSize w.heap.mem 4108)) = some (4108, 0, 112) := by
    decide +kernel
  obtain ⟨w, hrun, hw⟩ := Option.map_eq_some_iff.mp hfacts
  simp only [Prod.mk.injEq] at hw
  obtain ⟨hhead, hnext, hblock⟩ := hw
  have hreach : Runs.Reach (Client.step (api lowRegion)) (Admits lowRegion)
      (Client.initial Bin) w := .of_run .start (by decide +kernel) hrun
  obtain ⟨nodes, hlinked, hreuses⟩ := bin_reuse lowRegion_sound hreach
  have hlist : Linked (nextFree w.heap.mem) 0 (w.heap.freeHead 5) [4108] := by
    rw [linked_cons, hhead, hnext]
    exact ⟨rfl, by decide, linked_nil.mpr rfl⟩
  refine ⟨w, nodes, hrun, hlinked, (hreuses 100 (by decide)).mpr (Or.inl ⟨4108, ?_, ?_⟩)⟩
  · have hown : sizeToBin (chunkNeed 100) = 5 := by decide
    rw [hown, (hlinked 5).unique hlist]
    exact List.mem_singleton_self 4108
  · rw [hblock]
    decide

/-- A block of 208 bytes is free, but not in the bin of a request for 64, which goes
to the arena. -/
theorem bin_reuse_fails : lowRegion.Sound ∧
    ∃ w, ∃ nodes : Bin → List Nat,
      Runs.run (Client.step (api lowRegion)) (Client.initial Bin) [.malloc 200, .free 4112] =
        some w ∧
      Runs.Reach (Client.step (api lowRegion)) (Client.Disciplined (2 ^ 63) (2 ^ 63))
        (Client.initial Bin) w ∧
      (∀ i, Linked (nextFree w.heap.mem) 0 (w.heap.freeHead i) (nodes i)) ∧
      ¬ ReusesBins lowRegion w.heap 56 nodes := by
  have hfacts : (Runs.run (Client.step (api lowRegion)) (Client.initial Bin)
      [.malloc 200, .free 4112]).map (fun w =>
        (decide (∀ i, w.heap.freeHead i = if i = 7 then 4108 else 0),
        nextFree w.heap.mem 4108, blockSize w.heap.mem 4108,
        (myMalloc lowRegion w.heap 56).map Prod.snd)) =
      some (true, 0, 208, some 4320) := by decide +kernel
  obtain ⟨w, hrun, hw⟩ := Option.map_eq_some_iff.mp hfacts
  simp only [Prod.mk.injEq] at hw
  obtain ⟨hheads, hnext, hblock, hmalloc⟩ := hw
  have hlist : ∀ i, Linked (nextFree w.heap.mem) 0 (w.heap.freeHead i)
      (if i = 7 then [4108] else []) := by
    intro i
    rw [of_decide_eq_true hheads i]
    by_cases hi : i = 7
    · rw [if_pos hi, if_pos hi, linked_cons, hnext]
      exact ⟨rfl, by decide, linked_nil.mpr rfl⟩
    · rw [if_neg hi, if_neg hi]
      exact linked_nil.mpr rfl
  refine ⟨lowRegion_sound, w, _, hrun, .of_run .start (by decide +kernel) hrun, hlist, ?_⟩
  rintro ⟨s', p, heq, hreuses⟩
  rw [heq] at hmalloc
  have hp : p = 4320 := Option.some.inj hmalloc
  obtain ⟨i, h, _, hmem, _, hpayload, _⟩ :=
    hreuses ⟨7, 4108, by decide, by simp, by rw [hblock]; decide⟩
  have hh : h = 4108 := by
    by_cases hi : i = 7
    · simpa [hi] using hmem
    · simp [hi] at hmem
  omega

end Segregated

end AllocSitter
