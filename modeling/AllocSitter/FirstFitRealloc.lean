/-
`my_realloc` of `allocator.c` on a represented heap.  A block is kept, cut,
extended over its right neighbour or moved; each way is one case, with what it
does to the row and to the list.
-/
import AllocSitter.FirstFitSpec

namespace AllocSitter

namespace FirstFit

open ByteMemory LinkedChain Tiling

/-- A resize to `newSize` has to move the block: it is too small, and the right
neighbour is no free block that makes up for it. -/
def moves (s : State) (ptr newSize : Nat) : Bool :=
  let oldSize := tagSize (load s.mem (ptrSub ptr 4) 4)
  let rightHeader := ptrAdd (ptrSub ptr 4) oldSize
  decide (newSize > oldSize) &&
    !decide (rightHeader < s.heapHi ∧ load s.mem rightHeader 4 % 2 = 0 ∧
      oldSize + tagSize (load s.mem rightHeader 4) ≥ newSize)

/-- The byte count with which a call reaches `my_malloc`, if it does. -/
def request (s : State) : Call → Option Nat
  | .malloc size => some size
  | .calloc nmemb size => callocRequest nmemb size
  | .realloc ptr size =>
      if ptr = 0 then some size
      else if size = 0 then none
      else if moves s ptr (reallocSize size) then some (reallocSize size)
      else none
  | _ => none

/-- The calls that `allocator.c` can serve: sums of the scan do not wrap, the
arena is reached safely, and the size of a resize is not cut to 32 bits. -/
def Safe (mmap : Mmap) (s : State) (call : Call) : Prop :=
  (∀ n, request s call = some n → n + 40 ≤ 2 ^ 64 ∧ RequestSafe theList mmap s n) ∧
    ∀ ptr size, call = .realloc ptr size → ptr ≠ 0 → size + 24 ≤ 2 ^ 32

/-- The rounding of `my_realloc` is that of `my_malloc` below 4 GiB. -/
theorem reallocSize_eq {size : Nat} (h : size + 24 ≤ 2 ^ 32) :
    reallocSize size = chunkNeed size := by
  unfold reallocSize chunkNeed
  rw [Nat.mod_eq_of_lt (by omega : (size + 8 + 15) % 2 ^ 64 < 2 ^ 32)]

theorem reallocSize_rounds {size : Nat} (h : size + 24 ≤ 2 ^ 32) :
    16 ≤ reallocSize size ∧ reallocSize size % 16 = 0 ∧ size + 8 ≤ reallocSize size ∧
      reallocSize size ≤ size + 23 ∧ reallocSize size + 40 ≤ 2 ^ 64 := by
  rw [reallocSize_eq h]
  obtain ⟨hge, hmod, hfit, hle, _⟩ := chunkNeed_bounds (by omega : size + 40 ≤ 2 ^ 64)
  exact ⟨hge, hmod, hfit, hle, by omega⟩

/-- A rounded size that goes through `my_malloc` is rounded again. -/
theorem chunkNeed_rounded {newSize : Nat} (hmod : newSize % 16 = 0)
    (hlt : newSize + 40 ≤ 2 ^ 64) : chunkNeed newSize = newSize + 16 := by
  unfold chunkNeed tagSize
  omega

/-- What `my_realloc` to the rounded size `newSize` does with the live block `c`
that has `pre` and `post` on its sides. -/
inductive ReallocCase (mmap : Mmap) (s : State) (L : Layout Unit) (pre : List Block)
    (c : Block) (post : List Block) (newSize : Nat) :
    State → Nat → Layout Unit → Prop
  | same (hfit : newSize ≤ c.size) (hslack : c.size < newSize + 16) :
      ReallocCase mmap s L pre c post newSize s c.payload L
  | shrink {s' : State} (hge : 16 ≤ newSize) (hmod : newSize % 16 = 0)
      (hfit : newSize + 16 ≤ c.size) (hsame : SameArena s s') :
      ReallocCase mmap s L pre c post newSize s' c.payload
        ⟨pre ++ [c.taken newSize hge hmod, c.rest newSize hmod hfit] ++ post,
          pushBlock theList L.lists (c.rest newSize hmod hfit)⟩
  | growCut {s' : State} {d : Block} {rest : List Block} (hge : 16 ≤ newSize)
      (hmod : newSize % 16 = 0) (hgrow : c.size < newSize) (hpost : post = d :: rest)
      (hfree : d.used = false) (hfit : newSize + 16 ≤ (c.join d).size)
      (hsame : SameArena s s') :
      ReallocCase mmap s L pre c post newSize s' c.payload
        ⟨pre ++ [(c.join d).taken newSize hge hmod, (c.join d).rest newSize hmod hfit] ++ rest,
          pushBlock theList (fun _ => (L.lists ()).erase d)
            ((c.join d).rest newSize hmod hfit)⟩
  | growWhole {s' : State} {d : Block} {rest : List Block} (hgrow : c.size < newSize)
      (hpost : post = d :: rest) (hfree : d.used = false)
      (hexact : (c.join d).size = newSize) (hsame : SameArena s s') :
      ReallocCase mmap s L pre c post newSize s' c.payload
        ⟨pre ++ [(c.join d).taken (c.join d).size (c.join d).size_ge (c.join d).size_mod] ++
            rest, fun _ => (L.lists ()).erase d⟩
  | refused {s' : State} (hgrow : c.size < newSize)
      (hright : ∀ d rest, post = d :: rest → d.used = false → c.size + d.size < newSize)
      (hcase : MallocCase theList (fun _ stat => stat) mmap s L (newSize + 16) s' 0 L) :
      ReallocCase mmap s L pre c post newSize s' 0 L
  | moved {s₁ s' : State} {L₁ : Layout Unit} {u c₁ c₂ : Block}
      {pre₁ post₁ pre' post' list₁ list₂ : List Block} (hgrow : c.size < newSize)
      (hright : ∀ d rest, post = d :: rest → d.used = false → c.size + d.size < newSize)
      (hcase : MallocCase theList (fun _ stat => stat) mmap s L (newSize + 16) s₁ u.payload L₁)
      (hgain : (Layout.usedBlocks L₁.blocks).Perm (u :: Layout.usedBlocks L.blocks))
      (hroom : newSize + 8 ≤ u.size)
      (hblocks₁ : L₁.blocks = pre₁ ++ c :: post₁)
      (hmerge : RightCase c.release post₁ (L₁.lists ()) c₁ post' list₁)
      (hmerge' : LeftCase pre₁ c₁ list₁ pre' c₂ list₂) :
      ReallocCase mmap s L pre c post newSize s' u.payload
        ⟨pre' ++ [c₂] ++ post', fun _ => c₂ :: list₂⟩

section Resize

variable {mmap : Mmap} {s : State} {L : Layout Unit} {pre post : List Block} {c : Block}
  {newSize : Nat}
  (h : Represents theList s L) (hblocks : L.blocks = pre ++ c :: post)
  (hused : c.used = true)

include h hblocks hused

theorem shrinkInPlace_spec (hge : 16 ≤ newSize) (hmod : newSize % 16 = 0)
    (hfit : newSize + 16 ≤ c.size) :
    ∃ s', shrinkInPlace s c.payload c.size newSize = (s', c.payload) ∧
      Represents theList s'
        ⟨pre ++ [c.taken newSize hge hmod, c.rest newSize hmod hfit] ++ post,
          pushBlock theList L.lists (c.rest newSize hmod hfit)⟩ ∧
      SameArena s s' ∧
      (∀ b ∈ pre ++ post, SameOn s.mem s'.mem b.addr b.size) ∧
      SameOn s.mem s'.mem (c.addr + 4) (newSize - 8) := by
  have hc : c ∈ L.blocks := by simp [hblocks]
  obtain ⟨_, hhigh, _, hcur, _⟩ := h.room.bounds hc
  have hheader := h.header_eq hc
  have hmid : Tiles Block.addr Block.size c.addr [c] (c.addr + c.size) := ⟨rfl, rfl⟩
  obtain ⟨hrep, hframe, hinner⟩ := (h.held hblocks hused).carve
    (List.mem_singleton_self c) hmid hge hmod hfit
  refine ⟨_, ?_, hrep, ?_, hframe, hinner⟩
  · have hor : newSize ||| 1 = newSize + 1 := or_one_of_even (by omega)
    have hsplit : ptrSub (ptrAdd c.payload newSize) 4 = c.addr + newSize := by
      unfold Block.payload
      rw [ptrAdd_of_lt (by omega), ptrSub_of_le (by omega) (by omega)]
      omega
    have hleft : c.size - newSize ≥ 16 := by omega
    simp only [shrinkInPlace, hleft, ↓reduceIte, hheader, hor, hsplit]
    rfl
  · exact (SameArena.of_mem_stat s _ s.stat).trans (freelistPush_sameArena _ _ _)

/-- Growth over the right neighbour with a rest that is large enough for a
block. -/
theorem growInPlace_cut {d : Block} {rest : List Block} (hpost : post = d :: rest)
    (hfree : d.used = false) (hge : 16 ≤ newSize) (hmod : newSize % 16 = 0)
    (hgrow : c.size < newSize) (hfit : newSize + 16 ≤ (c.join d).size) :
    ∃ s', growInPlace s c.payload c.size newSize d.addr = some (s', c.payload) ∧
      Represents theList s'
        ⟨pre ++ [(c.join d).taken newSize hge hmod, (c.join d).rest newSize hmod hfit] ++ rest,
          pushBlock theList (fun _ => (L.lists ()).erase d)
            ((c.join d).rest newSize hmod hfit)⟩ ∧
      SameArena s s' ∧
      (∀ b ∈ pre ++ post, b.used = true → SameOn s.mem s'.mem b.addr b.size) ∧
      SameOn s.mem s'.mem (c.addr + 4) (c.size - 8) := by
  subst hpost
  have hc : c ∈ L.blocks := by simp [hblocks]
  have hd : d ∈ L.blocks := by simp [hblocks]
  have hheader := h.header_eq hc
  have hheld := h.held hblocks hused
  have hsplitSize : (c.join d).size = c.size + d.size := rfl
  obtain ⟨s₁, hremove, hheld₁, hsame, hframe⟩ :=
    freelistRemove_spec hheld pre [c, d] rest (by simp) rfl rfl hfree
  have hmid : Tiles Block.addr Block.size (c.join d).addr [c, d]
      ((c.join d).addr + (c.join d).size) := by
    obtain ⟨_, hpost, _⟩ := hheld.pieces (List.mem_singleton_self c) ⟨rfl, rfl⟩
    exact ⟨rfl, hpost.1, Nat.add_assoc c.addr c.size d.size⟩
  obtain ⟨hrep, hframe', hinner⟩ := hheld₁.carve List.mem_cons_self hmid hge hmod hfit
  have hsub : ∀ b ∈ pre ++ d :: rest, b.used = true → b ∈ pre ++ rest :=
    fun b hb hbused => mem_row_of_ne hb (ne_of_used hbused hfree)
  refine ⟨_, ?_, hrep, ?_, ?_, ?_⟩
  · obtain ⟨_, hpost₁, hcur, _, hsize⟩ := hheld₁.pieces List.mem_cons_self hmid
    have hend : (c.join d).addr + (c.join d).size < 2 ^ 64 :=
      Nat.lt_of_le_of_lt hpost₁.le hcur
    have haddr : (c.join d).addr = c.addr := rfl
    have hword : load s.mem d.addr 4 = d.size := by
      rw [(h.threaded.tagged d hd).1, Block.head, hfree]
      rfl
    have hor : newSize ||| 1 = newSize + 1 := or_one_of_even (by omega)
    have hsplit : ptrSub (ptrAdd c.payload newSize) 4 = c.addr + newSize := by
      unfold Block.payload
      rw [ptrAdd_of_lt (by omega), ptrSub_of_le (by omega) (by omega)]
      omega
    have hcombined : c.size + d.size ≥ newSize + 16 := hfit
    have hlink : ptrAdd (c.addr + newSize) 4 = c.addr + newSize + 4 :=
      ptrAdd_of_lt (by omega)
    have horder : ∀ m v, setTags (store (setTags m (c.addr + newSize)
          (c.size + d.size - newSize)) (c.addr + newSize + 4) 8 v) c.addr (newSize + 1) =
        store (cutTags m (c.join d) newSize) (c.addr + newSize + 4) 8 v :=
      fun m v => cutTags_reverse m hge hmod hfit hend (by omega) v
    simp only [growInPlace, hword, hremove, Option.bind_eq_bind, Option.bind_some,
      hcombined, ↓reduceIte, hsplit, hheader, hor, freelistPush, addFreelistLen, hlink, horder,
      haddr]
  · exact hsame.trans ((SameArena.of_mem_stat s₁ _ s₁.stat).trans
      (freelistPush_sameArena _ _ _))
  · intro b hb hbused
    have hoff := hheld.used_off_lists hb hbused ()
    exact (hframe b (mem_row_of_mem hb) hoff).trans (hframe' b (hsub b hb hbused))
  · have hoff := hheld.off_lists (List.mem_singleton_self c) ()
    have hkeep := hframe c (by simp) hoff
    exact (hkeep.mono (by omega) (by have := c.size_ge; omega)).trans
      (hinner.mono (Nat.le_refl _) (by change c.addr + 4 + _ ≤ c.addr + 4 + _; omega))

/-- Growth that takes the right neighbour as a whole. -/
theorem growInPlace_whole {d : Block} {rest : List Block} (hpost : post = d :: rest)
    (hfree : d.used = false) (hexact : (c.join d).size = newSize) :
    ∃ s', growInPlace s c.payload c.size newSize d.addr = some (s', c.payload) ∧
      Represents theList s'
        ⟨pre ++ [(c.join d).taken (c.join d).size (c.join d).size_ge (c.join d).size_mod] ++
            rest, fun _ => (L.lists ()).erase d⟩ ∧
      SameArena s s' ∧
      (∀ b ∈ pre ++ post, b.used = true → SameOn s.mem s'.mem b.addr b.size) ∧
      SameOn s.mem s'.mem (c.addr + 4) (c.size - 8) := by
  subst hpost
  have hc : c ∈ L.blocks := by simp [hblocks]
  have hd : d ∈ L.blocks := by simp [hblocks]
  have hheader := h.header_eq hc
  have hheld := h.held hblocks hused
  have hge := c.size_ge
  have hge' := d.size_ge
  obtain ⟨s₁, hremove, hheld₁, hsame, hframe⟩ :=
    freelistRemove_spec hheld pre [c, d] rest (by simp) rfl rfl hfree
  generalize hu : (c.join d).taken (c.join d).size (c.join d).size_ge (c.join d).size_mod = u
  have haddr : u.addr = c.addr := by rw [← hu]; rfl
  have hsize : u.size = c.size + d.size := by rw [← hu]; rfl
  have hhead : u.head = c.size + d.size + 1 := by rw [← hu]; rfl
  have hfoot : u.foot = u.used := by rw [← hu]; rfl
  have huused : u.used = true := by rw [← hu]; rfl
  have hmid : Tiles Block.addr Block.size u.addr [c, d] (u.addr + u.size) := by
    obtain ⟨_, hpost, _⟩ := hheld.pieces (List.mem_singleton_self c) ⟨rfl, rfl⟩
    rw [haddr, hsize]
    exact ⟨rfl, hpost.1, Nat.add_assoc c.addr c.size d.size⟩
  obtain ⟨htake, hframe'⟩ := hheld₁.retagOne List.mem_cons_self hmid hfoot
  have hsub : ∀ b ∈ pre ++ d :: rest, b.used = true → b ∈ pre ++ rest :=
    fun b hb hbused => mem_row_of_ne hb (ne_of_used hbused hfree)
  refine ⟨_, ?_, (htake.settle huused).represents, ?_, ?_, ?_⟩
  · have hword : load s.mem d.addr 4 = d.size := by
      rw [(h.threaded.tagged d hd).1, Block.head, hfree]
      rfl
    have hmod := c.size_mod
    have hmod' := d.size_mod
    have hor : c.size + d.size ||| 1 = u.head := by
      rw [or_one_of_even (by omega), hhead]
    have hcombined : ¬ c.size + d.size ≥ newSize + 16 := by
      have hjoined : c.size + d.size = newSize := hexact
      omega
    simp only [growInPlace, hword, hremove, Option.bind_eq_bind, Option.bind_some,
      hcombined, ↓reduceIte, hheader, hor, haddr]
  · exact hsame.trans (SameArena.of_mem_stat s₁ _ s₁.stat)
  · intro b hb hbused
    have hoff := hheld.used_off_lists hb hbused ()
    exact (hframe b (mem_row_of_mem hb) hoff).trans (hframe' b (hsub b hb hbused))
  · have hoff := hheld.off_lists (List.mem_singleton_self c) ()
    have hkeep := hframe c (by simp) hoff
    obtain ⟨_, hpost₁, hcur, _, hspan⟩ := hheld₁.pieces List.mem_cons_self hmid
    have hend := Nat.lt_of_le_of_lt hpost₁.le hcur
    apply (hkeep.mono (by omega) (by omega)).trans
    intro x hlo hhi
    exact setTags_same s₁.mem hend (by omega) (by omega) (by omega)

/-- The new block of a move: when there is one, the old block lies in the heap after the
copy as it did before, and its payload has been copied. -/
theorem copied_spec (hsound : mmap.Sound) (hmod : newSize % 16 = 0)
    (hlt : newSize + 40 ≤ 2 ^ 64) (hgrow : c.size < newSize)
    (hsafe : RequestSafe theList mmap s newSize) :
    ∃ s₁ p L₁, myMalloc mmap s newSize = some (s₁, p) ∧
      MallocCase theList (fun _ stat => stat) mmap s L (newSize + 16) s₁ p L₁ ∧
      Represents theList s₁ L₁ ∧
      (∀ b ∈ Layout.usedBlocks L.blocks, SameOn s.mem s₁.mem b.addr b.size) ∧
      (p ≠ 0 → ∃ u, p = u.payload ∧
        (Layout.usedBlocks L₁.blocks).Perm (u :: Layout.usedBlocks L.blocks) ∧
        newSize + 8 ≤ u.size ∧ c ∈ Layout.usedBlocks L₁.blocks ∧ c ≠ u ∧
        Represents theList { s₁ with mem := copy s₁.mem u.payload c.payload (c.size - 8) } L₁ ∧
        (∀ b ∈ Layout.usedBlocks L.blocks,
          SameOn s.mem (copy s₁.mem u.payload c.payload (c.size - 8)) b.addr b.size) ∧
        ∀ i < c.size - 8, copy s₁.mem u.payload c.payload (c.size - 8) (u.payload + i) =
          s.mem (c.payload + i)) := by
  have hge := c.size_ge
  have hc : c ∈ Layout.usedBlocks L.blocks :=
    Layout.mem_usedBlocks.mpr ⟨by simp [hblocks], hused⟩
  obtain ⟨s₁, p, L₁, hmalloc, hcase, hrep, hframe⟩ := myMalloc_spec hsound h hlt hsafe
  have hkept : ∀ b ∈ Layout.usedBlocks L.blocks, SameOn s.mem s₁.mem b.addr b.size := by
    intro b hb
    obtain ⟨hrow, hbused⟩ := Layout.mem_usedBlocks.mp hb
    exact hframe b hrow hbused
  have heffect : Effect (Layout.usedBlocks L.blocks) 0 newSize
      (Layout.usedBlocks L₁.blocks) p :=
    hcase.effect h.lists_free (chunkNeed_bounds hlt).2.2.1
  rw [chunkNeed_rounded hmod hlt] at hcase
  refine ⟨s₁, p, L₁, hmalloc, hcase, hrep, hkept, fun hp => ?_⟩
  rcases h.allocation_cases heffect with ⟨hnull, _⟩ | ⟨u, hu, hperm, hfit⟩
  · exact absurd hnull hp
  · obtain ⟨hc₁, hne⟩ := hrep.gained hperm hc
    exact ⟨u, hu, hperm, hfit, hc₁, hne,
      hrep.copy_into hperm hkept hc (Nat.sub_add_cancel (by omega)).le (by omega)⟩

/-- Growth into a new block of `newSize + 16` bytes. -/
theorem moveBlock_spec (hsound : mmap.Sound) (hmod : newSize % 16 = 0)
    (hlt : newSize + 40 ≤ 2 ^ 64) (hgrow : c.size < newSize)
    (hright : ∀ d rest, post = d :: rest → d.used = false → c.size + d.size < newSize)
    (hsafe : RequestSafe theList mmap s newSize) :
    ∃ s' q L', moveBlock mmap s c.payload c.size newSize = some (s', q) ∧
      ReallocCase mmap s L pre c post newSize s' q L' ∧ Represents theList s' L' ∧
      Kept s.mem s'.mem L.blocks c.payload ∧
      (q ≠ 0 → ∀ i < c.size - 8, s'.mem (q + i) = s.mem (c.payload + i)) := by
  have hge := c.size_ge
  obtain ⟨s₁, p, L₁, hmalloc, hcase, hrep, hkept, hnew⟩ :=
    copied_spec h hblocks hused hsound hmod hlt hgrow hsafe
  by_cases hp : p = 0
  · subst hp
    have hL := hcase.eq_of_null
    subst hL
    refine ⟨s₁, 0, L₁, ?_, .refused hgrow hright hcase, hrep, fun b hb _ => hkept b hb,
      fun hq => absurd rfl hq⟩
    simp [moveBlock, hmalloc]
  · obtain ⟨u, rfl, hperm, hfit, hc₁, hne, hrep', hkept', hdata⟩ := hnew hp
    have hu : u ∈ Layout.usedBlocks L₁.blocks := hperm.mem_iff.mpr List.mem_cons_self
    have hlen : ptrSub c.size 8 = c.size - 8 := ptrSub_of_le (by omega) (by omega)
    obtain ⟨pre₁, post₁, hblocks₁⟩ := List.append_of_mem (Layout.mem_usedBlocks.mp hc₁).1
    obtain ⟨s', c₁, post', list₁, pre', c₂, list₂, hfree, hmerge, hmerge', hrep₂, _, hframe₂⟩ :=
      myFree_spec hrep' hblocks₁ hused
    have hframe' : ∀ b ∈ Layout.usedBlocks L₁.blocks, b ≠ c →
        SameOn (copy s₁.mem u.payload c.payload (c.size - 8)) s'.mem b.addr b.size := by
      intro b hb hbc
      obtain ⟨hrow, hbused⟩ := Layout.mem_usedBlocks.mp hb
      exact hframe₂ b (mem_row_of_ne (hblocks₁ ▸ hrow) hbc) hbused
    refine ⟨s', u.payload, _, ?_,
      .moved hgrow hright hcase hperm hfit hblocks₁ hmerge hmerge', hrep₂, ?_, ?_⟩
    · simp [moveBlock, hmalloc, hp, hlen, hfree]
    · intro b hb hgiven
      obtain ⟨hb₁, _⟩ := hrep.gained hperm hb
      have hbc : b ≠ c := fun heq => hgiven (congrArg Block.payload heq)
      exact (hkept' b hb).trans (hframe' b hb₁ hbc)
    · intro _ i hi
      rw [← hdata i hi]
      apply hframe' u hu hne.symm
      · unfold Block.payload
        omega
      · unfold Block.payload
        omega

/-- The test on the right neighbour of a live block. -/
theorem absorbs_iff :
    (c.addr + c.size < s.heapHi ∧ load s.mem (c.addr + c.size) 4 % 2 = 0 ∧
        c.size + tagSize (load s.mem (c.addr + c.size) 4) ≥ newSize) ↔
      ∃ d rest, post = d :: rest ∧ d.used = false ∧ newSize ≤ c.size + d.size := by
  have hheld := h.held hblocks hused
  have hsize : ∀ d rest, post = d :: rest →
      tagSize (load s.mem (c.addr + c.size) 4) = d.size := by
    rintro d rest rfl
    rw [← right_addr hheld]
    exact (h.threaded.tagged d (by simp [hblocks])).tagSize_head
  constructor
  · rintro ⟨hlt, hclear, hfit⟩
    obtain ⟨d, rest, hpost, hfree⟩ := (right_free_iff hheld).mp ⟨hlt, hclear⟩
    rw [hsize d rest hpost] at hfit
    exact ⟨d, rest, hpost, hfree, hfit⟩
  · rintro ⟨d, rest, hpost, hfree, hfit⟩
    obtain ⟨hlt, hclear⟩ := (right_free_iff hheld).mpr ⟨d, rest, hpost, hfree⟩
    rw [hsize d rest hpost]
    exact ⟨hlt, hclear, hfit⟩

/-- A resize has to go through `my_malloc` exactly when neither the block nor its
right neighbour gives the room. -/
theorem moves_iff :
    moves s c.payload newSize = true ↔ c.size < newSize ∧
      ∀ d rest, post = d :: rest → d.used = false → c.size + d.size < newSize := by
  have hc : c ∈ L.blocks := by simp [hblocks]
  obtain ⟨_, hhigh, _, hcur, _⟩ := h.room.bounds hc
  have hheader := h.header_eq hc
  have htag := (h.threaded.tagged c hc).tagSize_head
  have hright : ptrAdd c.addr c.size = c.addr + c.size := ptrAdd_of_lt (by omega)
  have habsorbs : (c.addr + c.size < s.heapHi ∧ load s.mem (c.addr + c.size) 4 % 2 = 0 ∧
        c.size + tagSize (load s.mem (c.addr + c.size) 4) ≥ newSize) ↔ _ :=
    absorbs_iff h hblocks hused
  simp only [moves, hheader, htag, hright, Bool.and_eq_true, decide_eq_true_eq,
    Bool.not_eq_true', decide_eq_false_iff_not, habsorbs]
  constructor
  · rintro ⟨hgrow, hnone⟩
    refine ⟨hgrow, fun d rest hpost hfree => ?_⟩
    by_contra hle
    exact hnone ⟨d, rest, hpost, hfree, by omega⟩
  · rintro ⟨hgrow, hnone⟩
    refine ⟨hgrow, ?_⟩
    rintro ⟨d, rest, hpost, hfree, hfit⟩
    have := hnone d rest hpost hfree
    omega

/-- `my_realloc` of a live block to a rounded size. -/
theorem resizeBlock_spec (hsound : mmap.Sound) (hge : 16 ≤ newSize)
    (hmod : newSize % 16 = 0) (hlt : newSize + 40 ≤ 2 ^ 64)
    (hsafe : moves s c.payload newSize = true → RequestSafe theList mmap s newSize) :
    ∃ s' q L', resizeBlock mmap s c.payload newSize = some (s', q) ∧
      ReallocCase mmap s L pre c post newSize s' q L' ∧ Represents theList s' L' ∧
      Kept s.mem s'.mem L.blocks c.payload ∧
      (q ≠ 0 → ∀ i < min c.size newSize - 8, s'.mem (q + i) = s.mem (c.payload + i)) := by
  have hc : c ∈ L.blocks := by simp [hblocks]
  obtain ⟨_, hhigh, _, hcur, _⟩ := h.room.bounds hc
  have hheader := h.header_eq hc
  have htag := (h.threaded.tagged c hc).tagSize_head
  have hright : ptrAdd c.addr c.size = c.addr + c.size := ptrAdd_of_lt (by omega)
  have hothers : ∀ {s' : State},
      (∀ b ∈ pre ++ post, b.used = true → SameOn s.mem s'.mem b.addr b.size) →
      Kept s.mem s'.mem L.blocks c.payload := by
    intro s' hframe b hb hgiven
    obtain ⟨hrow, hbused⟩ := Layout.mem_usedBlocks.mp hb
    have hne : b ≠ c := fun heq => hgiven (congrArg Block.payload heq)
    exact hframe b (mem_row_of_ne (hblocks ▸ hrow) hne) hbused
  have hbytes : ∀ {s' : State} {len : Nat}, min c.size newSize ≤ len →
      SameOn s.mem s'.mem (c.addr + 4) (len - 8) → c.payload ≠ 0 →
      ∀ i < min c.size newSize - 8, s'.mem (c.payload + i) = s.mem (c.payload + i) := by
    intro s' len hle hsame _ i hi
    apply hsame
    · unfold Block.payload
      omega
    · unfold Block.payload
      omega
  by_cases hgrow : newSize > c.size
  · by_cases habsorb : ∃ d rest, post = d :: rest ∧ d.used = false ∧
        newSize ≤ c.size + d.size
    · have hguard := (absorbs_iff h hblocks hused).mpr habsorb
      obtain ⟨d, rest, hpost, hfree, hfit⟩ := habsorb
      have haddr : d.addr = c.addr + c.size := by
        subst hpost
        exact right_addr (h.held hblocks hused)
      have hresize : resizeBlock mmap s c.payload newSize =
          growInPlace s c.payload c.size newSize d.addr := by
        simp only [resizeBlock, hheader, htag, hright, hgrow, ↓reduceIte, hguard, and_self,
          haddr]
      rw [hresize]
      by_cases hcut : newSize + 16 ≤ (c.join d).size
      · obtain ⟨s', heq, hrep, hsame, hframe, hinner⟩ :=
          growInPlace_cut h hblocks hused hpost hfree hge hmod hgrow hcut
        exact ⟨s', c.payload, _, heq, .growCut hge hmod hgrow hpost hfree hcut hsame, hrep,
          hothers hframe, hbytes (by omega) hinner⟩
      · have hexact : (c.join d).size = newSize := by
          have hmod' := (c.join d).size_mod
          have hjoin : (c.join d).size = c.size + d.size := rfl
          omega
        obtain ⟨s', heq, hrep, hsame, hframe, hinner⟩ :=
          growInPlace_whole h hblocks hused hpost hfree hexact
        exact ⟨s', c.payload, _, heq, .growWhole hgrow hpost hfree hexact hsame, hrep,
          hothers hframe, hbytes (by omega) hinner⟩
    · have hguard : ¬ _ := fun hyes => habsorb ((absorbs_iff h hblocks hused).mp hyes)
      have hnone : ∀ d rest, post = d :: rest → d.used = false →
          c.size + d.size < newSize := by
        intro d rest hpost hfree
        by_contra hle
        exact habsorb ⟨d, rest, hpost, hfree, by omega⟩
      have hmoves := (moves_iff h hblocks hused).mpr ⟨hgrow, hnone⟩
      have hresize : resizeBlock mmap s c.payload newSize =
          moveBlock mmap s c.payload c.size newSize := by
        simp only [resizeBlock, hheader, htag, hright, hgrow, ↓reduceIte, hguard]
      rw [hresize]
      obtain ⟨s', q, L', heq, hcase, hrep, hkept, hdata⟩ :=
        moveBlock_spec h hblocks hused hsound hmod hlt hgrow hnone (hsafe hmoves)
      exact ⟨s', q, L', heq, hcase, hrep, hkept, fun hq i hi => hdata hq i (by omega)⟩
  · have hresize : resizeBlock mmap s c.payload newSize =
        some (shrinkInPlace s c.payload c.size newSize) := by
      simp only [resizeBlock, hheader, htag, hgrow, ↓reduceIte]
    rw [hresize]
    by_cases hcut : newSize + 16 ≤ c.size
    · obtain ⟨s', heq, hrep, hsame, hframe, hinner⟩ :=
        shrinkInPlace_spec h hblocks hused hge hmod hcut
      exact ⟨s', c.payload, _, by rw [heq], .shrink hge hmod hcut hsame, hrep,
        hothers fun b hb _ => hframe b hb, hbytes (by omega) hinner⟩
    · have hleft : ¬ c.size - newSize ≥ 16 := by omega
      refine ⟨s, c.payload, L, ?_, .same (by omega) (by omega), h,
        fun b _ _ => SameOn.refl _ _ _, fun _ i _ => rfl⟩
      simp only [shrinkInPlace, hleft, ↓reduceIte]

omit h in
/-- In each case the used blocks change as a resize may change them. -/
theorem ReallocCase.effect {s' : State} {q size : Nat} {L' : Layout Unit}
    (hcase : ReallocCase mmap s L pre c post newSize s' q L') (hpos : size ≠ 0)
    (hfit : size + 8 ≤ newSize) :
    Effect (Layout.usedBlocks L.blocks) c.payload size (Layout.usedBlocks L'.blocks) q := by
  have hbefore : (Layout.usedBlocks L.blocks).Perm (c :: Layout.usedBlocks (pre ++ post)) := by
    rw [hblocks]
    exact Layout.usedBlocks_used pre post hused
  cases hcase with
  | same hle => exact .swap ⟨rfl, hpos⟩ hbefore hbefore (by omega)
  | shrink hge hmod =>
      refine .swap (u := c.taken newSize hge hmod) ⟨rfl, hpos⟩ hbefore ?_ hfit
      exact Layout.usedBlocks_middle pre _ post
  | @growCut _ d rest hge hmod _ hpost hfree hcut =>
      subst hpost
      rw [Layout.usedBlocks_free pre rest hfree] at hbefore
      refine .swap (u := (c.join d).taken newSize hge hmod) ⟨rfl, hpos⟩ hbefore ?_ hfit
      exact Layout.usedBlocks_middle pre _ rest
  | @growWhole _ d rest _ hpost hfree hexact =>
      subst hpost
      rw [Layout.usedBlocks_free pre rest hfree] at hbefore
      refine .swap (u := (c.join d).taken (c.join d).size (c.join d).size_ge
        (c.join d).size_mod) ⟨rfl, hpos⟩ hbefore ?_ (hexact ▸ hfit)
      exact Layout.usedBlocks_middle pre _ rest
  | refused => exact .keep (Or.inr hpos) (List.Perm.refl _)
  | @moved s₁ _ L₁ u c₁ c₂ pre₁ post₁ pre' post' list₁ list₂ _ _ _ hgain hroom hblocks₁
      hmerge hmerge' =>
      have hc : c ∈ Layout.usedBlocks L.blocks := hbefore.mem_iff.mpr List.mem_cons_self
      have hlose : (Layout.usedBlocks L₁.blocks).Perm
          (c :: Layout.usedBlocks (pre' ++ [c₂] ++ post')) := by
        rw [hblocks₁, usedBlocks_merged hmerge hmerge' rfl]
        exact Layout.usedBlocks_used pre₁ post₁ hused
      exact Effect.move hc hgain hlose hpos (by omega)

end Resize

/-- `allocator.c` serves every safe call. -/
theorem contract {mmap : Mmap} (hsound : mmap.Sound) :
    Contract theList (api mmap) (Safe mmap) where
  malloc := by
    intro s L size h hok
    obtain ⟨hsize, hsafe⟩ := hok.1 size rfl
    exact mallocWith_served (fun _ _ => rfl) hsound h hsize hsafe
  calloc := by
    intro s L nmemb size h hok
    exact callocWith_served (fun _ _ => rfl) hsound h hok.1
  free := by
    intro s L ptr h howned
    rcases howned with rfl | ⟨c, hc, rfl⟩
    · refine ⟨s, by simp [api, myFree], L, h, ?_, fun b _ _ => SameOn.refl _ _ _⟩
      exact .keep (Or.inl rfl) (List.Perm.refl _)
    · obtain ⟨s', heq, hfreed⟩ := myFree_freed h hc
      exact ⟨s', heq, hfreed.served⟩
  realloc := by
    intro s L ptr size h howned hok
    rcases howned with rfl | ⟨c, hc, rfl⟩
    · obtain ⟨hsize, hsafe⟩ := hok.1 size (by simp [request])
      exact mallocWith_served (fun _ _ => rfl) hsound h hsize hsafe
    · have hptr := h.payload_ne_zero hc
      by_cases hzero : size = 0
      · subst hzero
        obtain ⟨s', heq, hfreed⟩ := myFree_freed h hc
        exact ⟨s', 0, by simp [api, myRealloc, hptr, heq], hfreed.served⟩
      · have hsmall := hok.2 c.payload size rfl hptr
        obtain ⟨hge, hmod, hfit, _, hlt⟩ := reallocSize_rounds hsmall
        obtain ⟨hrow, hused⟩ := Layout.mem_usedBlocks.mp hc
        obtain ⟨pre, post, hblocks⟩ := List.append_of_mem hrow
        obtain ⟨s', q, L', heq, hcase, hrep, hkept, _⟩ :=
          resizeBlock_spec h hblocks hused hsound hge hmod hlt fun hmoves =>
            (hok.1 (reallocSize size) (by simp [request, hptr, hzero, hmoves])).2
        refine ⟨s', q, by simp [api, myRealloc, hptr, hzero, heq], L', hrep, ?_, hkept⟩
        exact hcase.effect hblocks hused hzero hfit
  statReset := by
    intro s L h
    exact ⟨h.of_same h.threaded (SameArena.of_mem_stat s s.mem _) rfl, rfl⟩

/-- A call as a well-behaved client makes it, with byte counts of at most `2 ^ 63`
for a new block and `2 ^ 32 - 24` for a resize, whose request, if it misses the
list, reaches the arena safely. -/
def Admits (mmap : Mmap) (w : Client Unit) (call : Call) : Prop :=
  w.Disciplined (2 ^ 63) (2 ^ 32 - 24) call ∧
    PassesSafely theList mmap w.heap (request w.heap call)

instance (mmap : Mmap) (w : Client Unit) (call : Call) : Decidable (Admits mmap w call) :=
  inferInstanceAs (Decidable (_ ∧ _))

theorem Admits.safe {mmap : Mmap} {w : Client Unit} {call : Call}
    (h : Admits mmap w call) : w.Allows call ∧ Safe mmap w.heap call := by
  obtain ⟨⟨hallows, hwithin⟩, hsafe⟩ := h
  refine ⟨hallows, fun n hn => ⟨?_, hsafe n hn⟩, ?_⟩
  · have hbound : n ≤ 2 ^ 63 := by
      cases call with
      | malloc size =>
          rw [← Option.some.inj hn]
          exact hwithin
      | calloc nmemb size =>
          rw [(callocRequest_eq hn).1]
          exact hwithin
      | realloc ptr size =>
          have hsize : size ≤ 2 ^ 32 - 24 := hwithin
          have hround : reallocSize size ≤ size + 23 := by
            unfold reallocSize tagSize
            omega
          simp only [request] at hn
          split at hn
          · have := Option.some.inj hn
            omega
          · split at hn
            · simp at hn
            · split at hn
              · have := Option.some.inj hn
                omega
              · simp at hn
      | free => simp [request] at hn
      | write => simp [request] at hn
      | statReset => simp [request] at hn
    omega
  · intro ptr size hcall _
    subst hcall
    have hsize : size ≤ 2 ^ 32 - 24 := hwithin
    omega

end FirstFit

end AllocSitter
