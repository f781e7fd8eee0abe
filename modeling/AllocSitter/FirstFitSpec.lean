/-
`allocator.c` on a represented heap: removal from the list, the two merges of
`my_free`, and the ways `my_realloc` resizes a block.
-/
import AllocSitter.Contract
import AllocSitter.FirstFit

namespace AllocSitter

namespace FirstFit

open ByteMemory LinkedChain Tiling

/-- Blocks of every size go to the one list. -/
abbrev theList (_ : Nat) : Unit := ()

variable {mmap : Mmap} {s : State} {L : Layout Unit} {lists : Unit → List Block}
  {pre mid post : List Block} {c d : Block}

/-- `my_malloc` of `allocator.c`, which keeps no account. -/
theorem myMalloc_spec (hsound : mmap.Sound) (h : Represents theList s L) {size : Nat}
    (hsize : size + 40 ≤ 2 ^ 64) (hsafe : RequestSafe theList mmap s size) :
    ∃ s' p L', myMalloc mmap s size = some (s', p) ∧
      MallocCase theList (fun _ stat => stat) mmap s L (chunkNeed size) s' p L' ∧
      Represents theList s' L' ∧
      ∀ b ∈ L.blocks, b.used = true → SameOn s.mem s'.mem b.addr b.size :=
  mallocWith_spec (fun _ _ => rfl) h hsound hsize hsafe

theorem myCalloc_spec (hsound : mmap.Sound) (h : Represents theList s L)
    {nmemb count size : Nat} (hrequest : callocRequest nmemb count = some size)
    (hsize : size + 40 ≤ 2 ^ 64) (hsafe : RequestSafe theList mmap s size) :
    ∃ s₁ p L' m, myCalloc mmap s nmemb count = some ({ s₁ with mem := m }, p) ∧
      MallocCase theList (fun _ stat => stat) mmap s L (chunkNeed size) s₁ p L' ∧
      Represents theList { s₁ with mem := m } L' := by
  have hspec : ∃ s₁ p L' m, myMalloc mmap s size = some (s₁, p) ∧
      myCalloc mmap s nmemb count = some ({ s₁ with mem := m }, p) ∧ _ :=
    callocWith_spec (fun _ _ => rfl) hsound h hrequest hsize hsafe
  obtain ⟨s₁, p, L', m, _, heq, hcase, _, hrep, _⟩ := hspec
  exact ⟨s₁, p, L', m, heq, hcase, hrep⟩

/-- `freelist_remove` of a listed block.  The row is regrouped so that the block
is in hand afterwards. -/
theorem freelistRemove_spec (h : Held theList s lists pre mid post)
    (pre' mid' post' : List Block) {left right : List Block}
    (hrow : pre' ++ mid' ++ post' = pre ++ mid ++ post)
    (hout : pre ++ post = left ++ d :: right) (hin : pre' ++ post' = left ++ right)
    (hfree : d.used = false) :
    ∃ s', freelistRemove s d.addr = some s' ∧
      Held theList s' (fun _ => (lists ()).erase d) pre' mid' post' ∧ SameArena s s' ∧
      ∀ b ∈ pre ++ mid ++ post, b.addr ∉ (lists ()).map Block.addr →
        SameOn s.mem s'.mem b.addr b.size := by
  have hd : d ∈ pre ++ post := by simp [hout]
  have hlisted : d ∈ lists () := h.binned.mem_iff.mpr ⟨hd, hfree, rfl⟩
  obtain ⟨front, back, hlist⟩ := List.append_of_mem hlisted
  have hlinked := h.threaded.linked ()
  have hchain : (Layout.mk (pre ++ mid ++ post) lists).chains () =
      front.map Block.addr ++ d.addr :: back.map Block.addr := by
    simp [Layout.chains, hlist]
  rw [hchain] at hlinked
  have hfront := hlinked.not_mem_front
  have herase : (lists ()).erase d = front ++ back := by
    have hnot : d ∉ front := fun hmem => hfront (List.mem_map_of_mem hmem)
    rw [hlist, List.erase_append_right _ hnot, List.erase_cons_head]
  -- The walk stops at the link that points at the block.
  have hlen : front.length < walkFuel := by
    have hle := h.binned.length_le ()
    have hlt := h.room.length_lt
    simp only [hlist, List.length_append] at hle hlt
    unfold walkFuel
    omega
  have hwalk : walk (nextFree s.mem) 0 (s.freeHead ()) (· == d.addr) walkFuel .head 0 =
      some (0 + (front.map Block.addr).length + 1,
        some (Link.advance .head (front.map Block.addr))) := by
    apply walk_of_first_stop hlinked
    · simpa using hlen
    · intro a ha
      have hne : a ≠ d.addr := fun heq => hfront (heq ▸ ha)
      simpa using hne
    · simp
  rw [List.length_map, Nat.zero_add] at hwalk
  let s₀ : State :=
    { s with stat.removeSteps := ptrAdd s.stat.removeSteps (front.length + 1) }
  have hne : pre ++ mid ++ post ≠ [] := List.ne_nil_of_mem (mem_row_of_mem hd)
  have hcur := h.room.cur_lt (h.room.base_ne_zero hne)
  obtain ⟨hunlink, hframe⟩ :=
    Threaded.unlink (h.room.spread hne) hcur (s := s₀) h.threaded hchain
  let s₁ := setLink s₀ () (Link.advance .head (front.map Block.addr)) (nextFree s.mem d.addr)
  have hsame : SameArena s (subFreelistLen s₁) :=
    (SameArena.of_mem_stat s s.mem s₀.stat).trans
      ((setLink_sameArena s₀ () _ _).trans (subFreelistLen_sameArena s₁))
  refine ⟨subFreelistLen s₁, ?_, ⟨?_, ?_, ?_, ?_⟩, hsame, ?_⟩
  · simp only [freelistRemove, hwalk]
    rfl
  · rw [hrow, herase]
    have hchains : (Layout.mk (pre ++ mid ++ post) fun _ : Unit => front ++ back).chains =
        Function.update (Layout.mk (pre ++ mid ++ post) lists).chains ()
          (front.map Block.addr ++ back.map Block.addr) := by
      funext i
      simp [Layout.chains]
    rw [hchains]
    exact hunlink
  · rw [hrow]
    exact h.arena.of_same hsame
  · have hbinned := h.binned
    rw [hout] at hbinned
    have hremove := hbinned.remove hlist
    rw [hin, herase]
    intro i
    simpa using hremove i
  · have hcount : Layout.freeCount (pre ++ post) = Layout.freeCount (pre' ++ post') + 1 := by
      rw [hout, hin]
      simp only [Layout.freeCount, List.countP_append, List.countP_cons, hfree]
      simp only [Bool.not_false, ↓reduceIte]
      omega
    have hlt : Layout.freeCount (pre ++ post) ≤ Layout.freeCount (pre ++ mid ++ post) := by
      simp only [Layout.freeCount, List.countP_append]
      omega
    have hlt' := h.room.freeCount_lt
    have hstat : (subFreelistLen s₁).stat.freelistLen = ptrSub s.stat.freelistLen 1 := by
      simp only [s₁, subFreelistLen_stat, setLink_stat, s₀]
    rw [hstat, h.length, ptrSub_of_le (by omega) (by omega)]
    omega
  · intro b hb hoff
    apply hframe b hb
    intro hmem
    apply hoff
    rw [hlist, List.map_append]
    exact List.mem_append_left _ hmem

/-- What the first merge of `my_free` does to the free block `c`, the blocks to
its right and the list. -/
inductive RightCase (c : Block) (post list : List Block) :
    Block → List Block → List Block → Prop
  | alone (hright : ∀ d rest, post = d :: rest → d.used = true) :
      RightCase c post list c post list
  | joined {d : Block} {rest : List Block} (hpost : post = d :: rest)
      (hfree : d.used = false) : RightCase c post list (c.join d) rest (list.erase d)

/-- What the second merge does to the blocks to the left, the free block `c` and
the list.  It goes by the footer of the left neighbour. -/
inductive LeftCase (pre : List Block) (c : Block) (list : List Block) :
    List Block → Block → List Block → Prop
  | alone (hleft : ∀ front e, pre = front ++ [e] → e.foot = true) :
      LeftCase pre c list pre c list
  | joined {front : List Block} {e : Block} (hpre : pre = front ++ [e])
      (hfoot : e.foot = false) : LeftCase pre c list front (e.join c) (list.erase e)

theorem right_addr {rest : List Block} (h : Held theList s lists pre [c] (d :: rest)) :
    d.addr = c.addr + c.size := by
  obtain ⟨_, hpost, _⟩ := h.pieces (List.mem_singleton_self c) ⟨rfl, rfl⟩
  exact hpost.1

/-- The test on the header behind a block in hand is one on its right neighbour. -/
theorem right_free_iff (h : Held theList s lists pre [c] post) :
    (c.addr + c.size < s.heapHi ∧ load s.mem (c.addr + c.size) 4 % 2 = 0) ↔
      ∃ d rest, post = d :: rest ∧ d.used = false := by
  have hc : c ∈ [c] := List.mem_singleton_self c
  obtain ⟨_, hpost, _⟩ := h.pieces hc ⟨rfl, rfl⟩
  have htop : s.heapHi = s.arenaCur :=
    (h.arena.top (h.room.base_ne_zero (row_ne_nil hc))).1
  cases post with
  | nil =>
      have hend : c.addr + c.size = s.arenaCur := hpost
      constructor
      · rintro ⟨hlt, _⟩
        omega
      · rintro ⟨d, rest, heq, _⟩
        simp at heq
  | cons d rest =>
      have haddr := right_addr h
      have hclear := (h.threaded.tagged d (by simp)).clear_iff
      have hle := hpost.2.le
      have hge := d.size_ge
      rw [haddr] at hclear
      rw [hclear]
      constructor
      · rintro ⟨_, hfree⟩
        exact ⟨d, rest, rfl, hfree⟩
      · rintro ⟨d', rest', heq, hfree⟩
        obtain ⟨rfl, rfl⟩ := List.cons.inj heq
        exact ⟨by omega, hfree⟩

/-- The size in the footer in front of a block in hand leads to the header of its left
neighbour. -/
theorem left_header {front : List Block} {e : Block}
    (h : Held theList s lists (front ++ [e]) [c] post) :
    s.heapLo ≤ e.addr ∧ e.addr + e.size = c.addr ∧
      ptrAdd (ptrSub (c.addr - 4) (tagSize (load s.mem (c.addr - 4) 4))) 4 = e.addr := by
  obtain ⟨hpre, hpost, hcur, hlow, _⟩ := h.pieces (List.mem_singleton_self c) ⟨rfl, rfl⟩
  obtain ⟨cut, hfront, haddr, hend⟩ := tiles_append.mp hpre
  have hend' : e.addr + e.size = c.addr := by
    rw [haddr]
    exact hend
  have hle := hpost.le
  have hle' := hfront.le
  have hge := e.size_ge
  have hlow' := (h.room.bounds (show e ∈ front ++ [e] ++ [c] ++ post by simp)).1
  have hsize := (h.threaded.tagged e (by simp)).tagSize_tail
  rw [hend'] at hsize
  refine ⟨by omega, hend', ?_⟩
  rw [hsize, ptrSub_of_le (by omega) (by omega), ptrAdd_of_lt (by omega)]
  omega

/-- The test on the footer in front of a block in hand is one on its left neighbour. -/
theorem left_free_iff (h : Held theList s lists pre [c] post) :
    (c.addr - 4 > s.heapLo ∧ load s.mem (c.addr - 4) 4 % 2 = 0) ↔
      ∃ front e, pre = front ++ [e] ∧ e.foot = false := by
  obtain ⟨hpre, _, _, hlow, _⟩ := h.pieces (List.mem_singleton_self c) ⟨rfl, rfl⟩
  rcases List.eq_nil_or_concat' pre with rfl | ⟨front, e, rfl⟩
  · have hstart : s.heapLo = c.addr := hpre
    constructor
    · rintro ⟨hlt, _⟩
      omega
    · rintro ⟨front, e, heq, _⟩
      simp at heq
  · obtain ⟨hlo, hend, _⟩ := left_header h
    have hge := e.size_ge
    have hclear := (h.threaded.tagged e (by simp)).clear_tail_iff
    rw [hend] at hclear
    rw [hclear]
    constructor
    · rintro ⟨_, hfoot⟩
      exact ⟨front, e, rfl, hfoot⟩
    · rintro ⟨front', e', heq, hfoot⟩
      rw [← (List.append_inj_right' heq rfl |> List.cons.inj).1] at hfoot
      exact ⟨by omega, hfoot⟩

theorem mergeRight_spec (h : Held theList s lists pre [c] post) :
    ∃ s' c' post' list', mergeRight s c.addr = some s' ∧
      RightCase c post (lists ()) c' post' list' ∧
      Held theList s' (fun _ => list') pre [c'] post' ∧ SameArena s s' ∧
      ∀ b ∈ pre ++ post, b.used = true → SameOn s.mem s'.mem b.addr b.size := by
  have hc : c ∈ [c] := List.mem_singleton_self c
  obtain ⟨_, hpost, hcur, _, _⟩ := h.pieces hc ⟨rfl, rfl⟩
  have hle := hpost.le
  have htag := (h.threaded.tagged c (by simp)).tagSize_head
  have hright : ptrAdd c.addr c.size = c.addr + c.size := ptrAdd_of_lt (by omega)
  by_cases hguard : c.addr + c.size < s.heapHi ∧ load s.mem (c.addr + c.size) 4 % 2 = 0
  · obtain ⟨d, rest, rfl, hfree⟩ := (right_free_iff h).mp hguard
    have haddr := right_addr h
    obtain ⟨s₁, hremove, hheld, hsame, hframe⟩ :=
      freelistRemove_spec h pre [c, d] rest (by simp) rfl rfl hfree
    have htag' := (hheld.threaded.tagged d (by simp)).tagSize_head
    rw [haddr] at hremove htag'
    have hspan : Tiles Block.addr Block.size (c.join d).addr [c, d]
        ((c.join d).addr + (c.join d).size) := by
      refine ⟨rfl, haddr, ?_⟩
      exact Nat.add_assoc c.addr c.size d.size
    obtain ⟨hjoin, hframe'⟩ := hheld.retagOne (d := c.join d) List.mem_cons_self hspan rfl
    refine ⟨_, c.join d, rest, (lists ()).erase d, ?_, .joined rfl hfree, hjoin,
      hsame.trans (SameArena.of_mem_stat s₁ _ s₁.stat), ?_⟩
    · simp only [mergeRight, htag, hright, hguard, and_self, ↓reduceIte, hremove,
        Option.bind_eq_bind, Option.bind_some, htag']
      rfl
    · intro b hb hbused
      have hne : b ≠ d := ne_of_used hbused hfree
      have hrest : b ∈ pre ++ rest := mem_row_of_ne hb hne
      have hoff := h.used_off_lists hb hbused ()
      exact (hframe b (mem_row_of_mem hb) hoff).trans (hframe' b hrest)
  · have hused : ∀ d rest, post = d :: rest → d.used = true := by
      intro d rest heq
      by_contra hfree
      exact hguard ((right_free_iff h).mpr ⟨d, rest, heq, by simpa using hfree⟩)
    refine ⟨s, c, post, lists (), ?_, .alone hused, h, SameArena.refl s,
      fun b _ _ => SameOn.refl _ _ _⟩
    simp only [mergeRight, htag, hright, hguard, ↓reduceIte]

/-- The second merge, and the push of what results. -/
theorem mergeLeft_spec (h : Held theList s lists pre [c] post) (hfree : c.used = false) :
    ∃ s' pre' c' list', mergeLeft s c.addr = some s' ∧
      LeftCase pre c (lists ()) pre' c' list' ∧
      Represents theList s' ⟨pre' ++ [c'] ++ post, fun _ => c' :: list'⟩ ∧
      SameArena s s' ∧
      ∀ b ∈ pre ++ post, b.used = true → SameOn s.mem s'.mem b.addr b.size := by
  have hc : c ∈ [c] := List.mem_singleton_self c
  have hge := c.size_ge
  obtain ⟨_, hpost, hcur, hlow, _⟩ := h.pieces hc ⟨rfl, rfl⟩
  have hle := hpost.le
  have hfooter : ptrSub c.addr 4 = c.addr - 4 := ptrSub_of_le (by omega) (by omega)
  have hpushed : ∀ {b : Block} {lists : Unit → List Block},
      pushBlock theList lists b = fun _ => b :: lists () := by
    intro b lists
    funext i
    simp [pushBlock]
  by_cases hguard : c.addr - 4 > s.heapLo ∧ load s.mem (c.addr - 4) 4 % 2 = 0
  · obtain ⟨front, e, rfl, hclear⟩ := (left_free_iff h).mp hguard
    obtain ⟨_, hend, hheader⟩ := left_header h
    have hefree := Block.free_of_foot hclear
    obtain ⟨s₁, hremove, hheld, hsame, hframe⟩ :=
      freelistRemove_spec h front [e, c] post (by simp) (List.append_assoc _ _ _) rfl hefree
    have htag := (hheld.threaded.tagged c (by simp)).tagSize_head
    have htag' := (hheld.threaded.tagged e (by simp)).tagSize_head
    have hspan : Tiles Block.addr Block.size (e.join c).addr [e, c]
        ((e.join c).addr + (e.join c).size) := by
      refine ⟨rfl, hend.symm, ?_⟩
      exact Nat.add_assoc e.addr e.size c.size
    obtain ⟨hjoin, hframe'⟩ := hheld.retagOne (d := e.join c) List.mem_cons_self hspan rfl
    obtain ⟨hrep, hsame'⟩ := hjoin.push rfl
    rw [hpushed] at hrep
    refine ⟨_, front, e.join c, (lists ()).erase e, ?_, .joined rfl hclear, hrep,
      hsame.trans ((SameArena.of_mem_stat s₁ _ s₁.stat).trans
        (freelistPush_sameArena _ _ _)), ?_⟩
    · simp only [mergeLeft, hfooter, hguard, and_self, ↓reduceIte, hheader, hremove,
        Option.bind_eq_bind, Option.bind_some, htag, htag']
      rw [Nat.add_comm c.size e.size]
      rfl
    · intro b hb hbused
      have hne : b ≠ e := ne_of_used hbused hefree
      have hb' : b ∈ front ++ post := by
        simp only [List.mem_append, List.mem_singleton] at hb ⊢
        tauto
      have hoff := h.used_off_lists hb hbused ()
      apply (hframe b (mem_row_of_mem hb) hoff).trans
      apply (hframe' b hb').trans
      apply hsame'.sameOn
      have hapart := hjoin.apart (List.mem_singleton_self _) hb'
      have hgej := (e.join c).size_ge
      omega
  · have hfoot : ∀ front e, pre = front ++ [e] → e.foot = true := by
      intro front e heq
      by_contra hclear
      exact hguard ((left_free_iff h).mpr ⟨front, e, heq, by simpa using hclear⟩)
    obtain ⟨hrep, hsame⟩ := h.push hfree
    rw [hpushed] at hrep
    refine ⟨freelistPush s c.addr (), pre, c, lists (), ?_, .alone hfoot, hrep,
      freelistPush_sameArena s () c.addr, ?_⟩
    · simp only [mergeLeft, hfooter, hguard, ↓reduceIte]
    · intro b hb _
      apply hsame.sameOn
      have hapart := h.apart hc hb
      omega

/-- `my_free` of a live block: the header loses its flag, the right neighbour and
then the left one are swallowed if they are seen to be free, and the result goes
to the front of the list. -/
theorem myFree_spec (h : Represents theList s L) (hblocks : L.blocks = pre ++ c :: post)
    (hused : c.used = true) :
    ∃ s' c₁ post' list₁ pre' c₂ list₂, myFree s c.payload = some s' ∧
      RightCase c.release post (L.lists ()) c₁ post' list₁ ∧
      LeftCase pre c₁ list₁ pre' c₂ list₂ ∧
      Represents theList s' ⟨pre' ++ [c₂] ++ post', fun _ => c₂ :: list₂⟩ ∧
      SameArena s s' ∧
      ∀ b ∈ pre ++ post, b.used = true → SameOn s.mem s'.mem b.addr b.size := by
  have hc : c ∈ L.blocks := by simp [hblocks]
  have hheader := h.header_eq hc
  have hptr : c.payload ≠ 0 := h.payload_ne_zero (Layout.mem_usedBlocks.mpr ⟨hc, hused⟩)
  have hflag := (h.threaded.tagged c hc).not_clear hused
  obtain ⟨hheld, hframe⟩ := (h.held hblocks hused).release hused
  obtain ⟨s₁, c₁, post', list₁, hright, hcase₁, hheld₁, hsame₁, hframe₁⟩ :=
    mergeRight_spec hheld
  have haddr₁ : c₁.addr = c.addr := by cases hcase₁ <;> rfl
  have hfree₁ : c₁.used = false := by cases hcase₁ <;> rfl
  have hsub : ∀ b ∈ pre ++ post, b.used = true → b ∈ pre ++ post' := by
    intro b hb hbused
    cases hcase₁ with
    | alone => exact hb
    | joined hpost hfree =>
        subst hpost
        exact mem_row_of_ne hb (ne_of_used hbused hfree)
  obtain ⟨s₂, pre', c₂, list₂, hleft, hcase₂, hrep, hsame₂, hframe₂⟩ :=
    mergeLeft_spec hheld₁ hfree₁
  refine ⟨s₂, c₁, post', list₁, pre', c₂, list₂, ?_, hcase₁, hcase₂, hrep,
    (SameArena.of_mem_stat s _ s.stat).trans (hsame₁.trans hsame₂), ?_⟩
  · simp only [myFree, hptr, ↓reduceIte, hheader, hflag]
    rw [show c.release.addr = c.addr from rfl] at hright
    rw [haddr₁] at hleft
    rw [hright]
    exact hleft
  · intro b hb hbused
    exact (hframe b hb).trans
      ((hframe₁ b hb hbused).trans (hframe₂ b (hsub b hb hbused) hbused))

/-- The merges swallow free blocks only. -/
theorem usedBlocks_merged {c₁ c₂ : Block} {pre' post' list list₁ list₂ : List Block}
    (hright : RightCase c post list c₁ post' list₁) (hleft : LeftCase pre c₁ list₁ pre' c₂ list₂)
    (hfree : c.used = false) :
    Layout.usedBlocks (pre' ++ [c₂] ++ post') = Layout.usedBlocks (pre ++ post) := by
  have hfree₁ : c₁.used = false := by
    cases hright with
    | alone => exact hfree
    | joined => rfl
  have hfree₂ : c₂.used = false := by
    cases hleft with
    | alone => exact hfree₁
    | joined => rfl
  have hpost : Layout.usedBlocks post' = Layout.usedBlocks post := by
    cases hright with
    | alone => rfl
    | joined hpost hd => simp [hpost, Layout.usedBlocks, hd]
  have hpre : Layout.usedBlocks pre' = Layout.usedBlocks pre := by
    cases hleft with
    | alone => rfl
    | @joined front e hpre hfoot =>
        simp [hpre, Layout.usedBlocks, Block.free_of_foot hfoot]
  simp only [Layout.usedBlocks] at hpost hpre
  simp [Layout.usedBlocks, hfree₂, hpost, hpre]

theorem myFree_freed (h : Represents theList s L)
    (hc : c ∈ Layout.usedBlocks L.blocks) :
    ∃ s', myFree s c.payload = some s' ∧ Freed theList s L c s' := by
  obtain ⟨hrow, hused⟩ := Layout.mem_usedBlocks.mp hc
  obtain ⟨pre, post, hblocks⟩ := List.append_of_mem hrow
  obtain ⟨s', c₁, post', list₁, pre', c₂, list₂, heq, hright, hleft, hrep, _, hframe⟩ :=
    myFree_spec h hblocks hused
  refine ⟨s', heq, _, hrep, ?_, ?_⟩
  · rw [hblocks, usedBlocks_merged hright hleft rfl]
    exact Layout.usedBlocks_used pre post hused
  · intro b hb hgiven
    have hne : b ≠ c := fun heq => hgiven (congrArg Block.payload heq)
    obtain ⟨hb', hbused⟩ := Layout.mem_usedBlocks.mp hb
    exact hframe b (mem_row_of_ne (hblocks ▸ hb') hne) hbused

end FirstFit

end AllocSitter
