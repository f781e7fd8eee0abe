/-
What `my_realloc` of `allocator.c` does to the heap around a live block: when the
block stays where it is, what becomes of the bytes that are cut off or left over,
which bytes are kept, and when two free blocks end up side by side.
-/
import AllocSitter.Coalescing
import AllocSitter.Placement
import AllocSitter.ResizeArithmetic

namespace AllocSitter

namespace FirstFit

open ByteMemory LinkedChain Tiling

/-- The size of the block to the right of the one at `ptr` if it is free, and 0
otherwise. -/
def rightFree (s : State) (ptr : Nat) : Nat :=
  let header := ptrSub ptr 4
  let right := ptrAdd header (blockSize s.mem header)
  if right < s.heapHi ∧ load s.mem right 4 % 2 = 0 then blockSize s.mem right else 0

/-- The bytes from which a resize in place cuts its block: those of the block, with
those of the free block to its right if they are needed. -/
def inPlace (s : State) (ptr newSize : Nat) : Nat :=
  let oldSize := blockSize s.mem (ptrSub ptr 4)
  if newSize ≤ oldSize then oldSize else oldSize + rightFree s ptr

/-- The bytes from `addr` on lie in one block of the list. -/
def Listed (s : State) (addr len : Nat) : Prop :=
  ∃ nodes, Linked (nextFree s.mem) 0 (s.freeHead ()) nodes ∧
    ∃ h ∈ nodes, h ≤ addr ∧ addr + len ≤ h + blockSize s.mem h

/-- The list has a block of `size` bytes at `header`. -/
def ListsBlock (s : State) (header size : Nat) : Prop :=
  ∃ nodes, Linked (nextFree s.mem) 0 (s.freeHead ()) nodes ∧ header ∈ nodes ∧
    blockSize s.mem header = size

/-- What a resize of the block at `ptr` to `newSize` bytes, tags included, with the
result `q` does to the blocks. -/
structure Reshapes (s : State) (ptr newSize : Nat) (s' : State) (q : Nat) : Prop where
  refused : q = 0 → s'.mem = s.mem ∧ s'.freeHead = s.freeHead
  stays : q = ptr ↔ newSize ≤ blockSize s.mem (ptr - 4) + rightFree s ptr
  cut : q = ptr → newSize + 16 ≤ inPlace s ptr newSize →
    blockSize s'.mem (ptr - 4) = newSize ∧
      ListsBlock s' (ptr - 4 + newSize) (inPlace s ptr newSize - newSize)
  whole : q = ptr → inPlace s ptr newSize < newSize + 16 →
    blockSize s'.mem (ptr - 4) = inPlace s ptr newSize
  freed : q ≠ 0 → q ≠ ptr → Listed s' (ptr - 4) (blockSize s.mem (ptr - 4))
  /-- The rest of the listed block that a moved block was cut from. -/
  rest : q ≠ 0 → q ≠ ptr → ∀ nodes, Linked (nextFree s.mem) 0 (s.freeHead ()) nodes →
    q - 4 ∈ nodes → blockSize s'.mem (q - 4) + 16 ≤ blockSize s.mem (q - 4) →
    Listed s' (q - 4 + blockSize s'.mem (q - 4))
      (blockSize s.mem (q - 4) - blockSize s'.mem (q - 4))

section Merge

variable {lo hi : Nat} {pre post pre' post' list list₁ list₂ : List Block} {c c₁ c₂ : Block}

/-- Merging leaves every free block inside a free block. -/
theorem covered_of_merge (htiles : Tiles Block.addr Block.size lo (pre ++ [c] ++ post) hi)
    (hfree : c.used = false) (hright : RightCase c post list c₁ post' list₁)
    (hleft : LeftCase pre c₁ list₁ pre' c₂ list₂) {b : Block} (hb : b ∈ pre ++ [c] ++ post)
    (hbfree : b.used = false) :
    ∃ f ∈ pre' ++ [c₂] ++ post', f.used = false ∧ f.addr ≤ b.addr ∧
      b.addr + b.size ≤ f.addr + f.size := by
  -- The first merge, with the row to the left as it was.
  have hfirst : c₁.used = false ∧ c₁.addr = c.addr ∧ ∃ f ∈ pre ++ [c₁] ++ post',
      f.used = false ∧ f.addr ≤ b.addr ∧ b.addr + b.size ≤ f.addr + f.size := by
    cases hright with
    | alone => exact ⟨hfree, rfl, b, hb, hbfree, Nat.le_refl _, Nat.le_refl _⟩
    | @joined d _ hpost hdfree =>
        subst hpost
        refine ⟨rfl, rfl, ?_⟩
        have hnext : d.addr = c.addr + c.size := by
          rw [List.append_assoc] at htiles
          exact htiles.next
        have hjoin : (c.join d).addr = c.addr ∧ (c.join d).size = c.size + d.size := ⟨rfl, rfl⟩
        rw [List.append_assoc, List.mem_append] at hb
        rcases hb with hb | hb
        · exact ⟨b, by simp [hb], hbfree, Nat.le_refl _, Nat.le_refl _⟩
        · simp only [List.singleton_append, List.mem_cons] at hb
          rcases hb with rfl | rfl | hb
          · exact ⟨b.join d, by simp, rfl, by omega, by omega⟩
          · exact ⟨c.join b, by simp, rfl, by omega, by omega⟩
          · exact ⟨b, by simp [hb], hbfree, Nat.le_refl _, Nat.le_refl _⟩
  obtain ⟨hfree₁, haddr₁, f, hf, hffree, hlow, hhigh⟩ := hfirst
  cases hleft with
  | alone => exact ⟨f, hf, hffree, hlow, hhigh⟩
  | @joined _ e hpre hfoot =>
      subst hpre
      have hnext : c.addr = e.addr + e.size := by
        simp only [List.append_assoc, List.singleton_append] at htiles
        exact htiles.next
      have hjoin : (e.join c₁).addr = e.addr ∧ (e.join c₁).size = e.size + c₁.size :=
        ⟨rfl, rfl⟩
      simp only [List.mem_append, List.mem_singleton] at hf
      rcases hf with ((hf | rfl) | rfl) | hf
      · exact ⟨f, by simp [hf], hffree, hlow, hhigh⟩
      · exact ⟨f.join c₁, by simp, rfl, by omega, by omega⟩
      · exact ⟨e.join f, by simp, rfl, by omega, by omega⟩
      · exact ⟨f, by simp [hf], hffree, hlow, hhigh⟩

end Merge

section Around

variable {mmap : Mmap} {s s' : State} {L L' : Layout Unit} {pre post : List Block} {c : Block}

theorem lists_block (h : Represents theList s L) {f : Block} (hf : f ∈ L.blocks)
    (hfree : f.used = false) : ListsBlock s f.addr f.size := by
  have hlisted : f ∈ L.lists () := h.binned.mem_iff.mpr ⟨hf, hfree, rfl⟩
  exact ⟨L.chains (), h.threaded.linked (), List.mem_map_of_mem hlisted, h.blockSize_eq hf⟩

theorem ListsBlock.listed {header size addr len : Nat} (h : ListsBlock s header size)
    (hlow : header ≤ addr) (hhigh : addr + len ≤ header + size) : Listed s addr len := by
  obtain ⟨nodes, hlinked, hmem, hsize⟩ := h
  exact ⟨nodes, hlinked, header, hmem, hlow, by rw [hsize]; exact hhigh⟩

/-- The row after a request that was granted is tiled. -/
theorem tiles_of_case {account : Nat → AllocStat → AllocStat} {need p : Nat}
    (h : Represents theList s L) (hcase : MallocCase theList account mmap s L need s' p L')
    (hp : p ≠ 0) : ∃ lo hi, Tiles Block.addr Block.size lo L'.blocks hi := by
  have hrow : ∀ {pre post : List Block} {c : Block}, L.blocks = pre ++ c :: post →
      ∃ lo hi, Tiles Block.addr Block.size lo pre c.addr ∧
        Tiles Block.addr Block.size (c.addr + c.size) post hi := by
    intro pre post c hblocks
    have htiles := (h.arena.tiles (by simp [hblocks])).2
    rw [hblocks] at htiles
    exact ⟨_, _, htiles.middle⟩
  cases hcase with
  | @split pre post front back c hge hmod hcut hblocks =>
      obtain ⟨lo, hi, hpre, hpost⟩ := hrow hblocks
      refine ⟨lo, hi, tiles_append.mpr ⟨_, tiles_append.mpr ⟨_, hpre, ?_⟩, hpost⟩⟩
      exact tiles_cut hge hmod hcut
  | @whole pre post front back c hsize hblocks =>
      obtain ⟨lo, hi, hpre, hpost⟩ := hrow hblocks
      exact ⟨lo, hi, tiles_append.mpr ⟨_, tiles_append.mpr ⟨_, hpre, rfl, rfl⟩, hpost⟩⟩
  | @extend top hge hmod hmiss htop =>
      by_cases hnil : L.blocks = []
      · rw [hnil]
        exact ⟨_, _, rfl, rfl⟩
      · have hbase := h.room.base_ne_zero hnil
        have hpad : padding L = 0 := by simp [padding, hnil]
        have htop' : top = s.arenaCur :=
          (htop.resolve_right fun hunmapped => hbase hunmapped.1).2.1
        refine ⟨_, _, tiles_append.mpr ⟨_, (h.arena.tiles hnil).2, ?_, rfl⟩⟩
        change top + padding L = s.arenaCur
        omega
  | fail => exact absurd rfl hp

/-- A block that `my_malloc` has cut from a larger listed one leaves a free block
behind it. -/
theorem rest_of_case {account : Nat → AllocStat → AllocStat} {need lo hi : Nat} {u b : Block}
    (h : Represents theList s L)
    (hcase : MallocCase theList account mmap s L need s' u.payload L')
    (htiles : Tiles Block.addr Block.size lo L'.blocks hi) (hu : u ∈ L'.blocks)
    (hb : b ∈ L.lists ()) (haddr : b.addr = u.addr) (hlarger : u.size + 16 ≤ b.size) :
    ∃ r ∈ L'.blocks, r.used = false ∧ r.addr = u.addr + u.size ∧ r.size = b.size - u.size := by
  have hrow := (h.binned.mem_iff.mp hb).1
  have htiles₀ := (h.arena.tiles (List.ne_nil_of_mem hrow)).2
  obtain ⟨_, hbelow, _⟩ := h.room.bounds hrow
  have hge := b.size_ge
  generalize hp : u.payload = p at hcase
  unfold Block.payload at hp
  cases hcase with
  | @split pre post front back c hge' hmod hcut hblocks =>
      obtain rfl : b = c := block_eq_of_addr htiles₀.spread hrow (by simp [hblocks]) (by omega)
      have htaken : u = b.taken need hge' hmod :=
        block_eq_of_addr htiles.spread hu (by simp) haddr.symm
      have hsize : u.size = need := by
        rw [htaken]
        rfl
      subst hsize
      refine ⟨b.rest u.size hmod hcut, by simp, rfl, ?_, rfl⟩
      rw [← haddr]
      rfl
  | @whole pre post front back c hsize hblocks =>
      obtain rfl : b = c := block_eq_of_addr htiles₀.spread hrow (by simp [hblocks]) (by omega)
      have htaken : u = b.taken b.size b.size_ge b.size_mod :=
        block_eq_of_addr htiles.spread hu (by simp) haddr.symm
      have hsame : u.size = b.size := by
        rw [htaken]
        rfl
      omega
  | @extend top hge' hmod hmiss htop =>
      have hbase := h.room.base_ne_zero (List.ne_nil_of_mem hrow)
      have htop' : top = s.arenaCur :=
        (htop.resolve_right fun hunmapped => hbase hunmapped.1).2.1
      omega
  | fail => omega

variable (h : Represents theList s L) (hblocks : L.blocks = pre ++ c :: post)
  (hused : c.used = true)

include h hblocks hused

/-- The right neighbour, as the row has it. -/
theorem rightFree_cases :
    (∃ d rest, post = d :: rest ∧ d.used = false ∧ rightFree s c.payload = d.size) ∨
      ((∀ d rest, post = d :: rest → d.used = true) ∧ rightFree s c.payload = 0) := by
  have hc : c ∈ L.blocks := by simp [hblocks]
  obtain ⟨_, hhigh, _, hcur, _⟩ := h.room.bounds hc
  have hright : ptrAdd c.addr c.size = c.addr + c.size := ptrAdd_of_lt (by omega)
  have hfree : (c.addr + c.size < s.heapHi ∧ load s.mem (c.addr + c.size) 4 % 2 = 0 ∧
      c.size + tagSize (load s.mem (c.addr + c.size) 4) ≥ 0) ↔
        ∃ d rest, post = d :: rest ∧ d.used = false ∧ 0 ≤ c.size + d.size :=
    absorbs_iff h hblocks hused
  simp only [rightFree, h.header_eq hc, h.blockSize_eq hc, hright]
  by_cases hguard : c.addr + c.size < s.heapHi ∧ load s.mem (c.addr + c.size) 4 % 2 = 0
  · obtain ⟨d, rest, hpost, hdfree, _⟩ := hfree.mp ⟨hguard.1, hguard.2, Nat.zero_le _⟩
    refine Or.inl ⟨d, rest, hpost, hdfree, ?_⟩
    have hd : d ∈ L.blocks := by simp [hblocks, hpost]
    have hnext : d.addr = c.addr + c.size := by
      have htiles := (h.arena.tiles (List.ne_nil_of_mem hc)).2
      rw [hblocks, hpost] at htiles
      exact htiles.next
    rw [if_pos hguard, ← hnext, h.blockSize_eq hd]
  · refine Or.inr ⟨fun d rest hpost => ?_, if_neg hguard⟩
    by_contra hdused
    obtain ⟨hlt, hclear, _⟩ := hfree.mpr ⟨d, rest, hpost, by simpa using hdused, Nat.zero_le _⟩
    exact hguard ⟨hlt, hclear⟩

/-- A resize that moves the block. -/
theorem reshapes_moved {s₁ : State} {L₁ : Layout Unit} {u c₁ c₂ : Block}
    {pre₁ post₁ pre' post' list₁ list₂ : List Block} {need newSize : Nat}
    (h' : Represents theList s' ⟨pre' ++ [c₂] ++ post', fun _ => c₂ :: list₂⟩)
    (hcase : MallocCase theList (fun _ stat => stat) mmap s L need s₁ u.payload L₁)
    (hgain : (Layout.usedBlocks L₁.blocks).Perm (u :: Layout.usedBlocks L.blocks))
    (hblocks₁ : L₁.blocks = pre₁ ++ c :: post₁)
    (hmerge : RightCase c.release post₁ (L₁.lists ()) c₁ post' list₁)
    (hmerge' : LeftCase pre₁ c₁ list₁ pre' c₂ list₂)
    (hsmall : c.size + rightFree s c.payload < newSize) :
    Reshapes s c.payload newSize s' u.payload := by
  have hc : c ∈ L.blocks := by simp [hblocks]
  have hpayload : ∀ b : Block, b.payload - 4 = b.addr := fun b => Nat.add_sub_cancel b.addr 4
  have hsize := h.blockSize_eq hc
  obtain ⟨lo, hi, htiles⟩ := tiles_of_case h hcase (by unfold Block.payload; omega)
  have hu : u ∈ Layout.usedBlocks L₁.blocks := hgain.mem_iff.mpr List.mem_cons_self
  obtain ⟨hurow, huused⟩ := Layout.mem_usedBlocks.mp hu
  have hne : u.addr ≠ c.addr := by
    intro heq
    have hnodup : (Layout.usedBlocks L₁.blocks).Nodup := by
      have haddrs := htiles.spread.addr_nodup fun b _ => by have := b.size_ge; omega
      exact (List.Nodup.of_map _ haddrs).filter _
    have huc := block_eq_of_addr htiles.spread hurow (by simp [hblocks₁]) heq
    rw [hgain.nodup_iff, List.nodup_cons, huc] at hnodup
    exact hnodup.1 (Layout.mem_usedBlocks.mpr ⟨hc, hused⟩)
  have hout : u ∈ pre' ++ [c₂] ++ post' := by
    have hmem : u ∈ Layout.usedBlocks (pre₁ ++ post₁) := by
      rw [hblocks₁] at hurow
      exact Layout.mem_usedBlocks.mpr
        ⟨mem_row_of_ne hurow fun heq => hne (congrArg Block.addr heq), huused⟩
    rw [← usedBlocks_merged hmerge hmerge' rfl] at hmem
    exact (Layout.mem_usedBlocks.mp hmem).1
  have hrow : Tiles Block.addr Block.size lo (pre₁ ++ [c.release] ++ post₁) hi := by
    rw [hblocks₁] at htiles
    obtain ⟨hpre, hpost⟩ := htiles.middle
    exact tiles_append.mpr ⟨_, tiles_append.mpr ⟨_, hpre, rfl, rfl⟩, hpost⟩
  -- A free block of the row between the two calls is inside a listed block now.
  have hlisted : ∀ b ∈ pre₁ ++ [c.release] ++ post₁, b.used = false →
      Listed s' b.addr b.size := by
    intro b hb hbfree
    obtain ⟨f, hf, hffree, hlow, hhigh⟩ :=
      covered_of_merge hrow rfl hmerge hmerge' hb hbfree
    exact (lists_block h' hf hffree).listed hlow hhigh
  have hqne : u.payload ≠ c.payload := by
    unfold Block.payload
    omega
  refine ⟨fun hnull => ?_, ?_, fun heq => absurd heq hqne, fun heq => absurd heq hqne, ?_, ?_⟩
  · unfold Block.payload at hnull
    omega
  · rw [hpayload, hsize]
    exact iff_of_false hqne (by omega)
  · intro _ _
    rw [hpayload, hsize]
    exact hlisted c.release (by simp) rfl
  · intro _ _ nodes hlinked hmem hlarger
    rw [hpayload] at hmem hlarger ⊢
    rw [hlinked.unique (h.threaded.linked ())] at hmem
    obtain ⟨b, hb, haddr⟩ := List.mem_map.mp hmem
    have hbsize := h.blockSize_eq (h.binned.mem_iff.mp hb).1
    rw [haddr] at hbsize
    rw [h'.blockSize_eq hout, hbsize] at hlarger ⊢
    obtain ⟨r, hr, hrfree, hraddr, hrsize⟩ := rest_of_case h hcase htiles hurow hb haddr hlarger
    rw [← hraddr, ← hrsize]
    apply hlisted r _ hrfree
    rw [hblocks₁] at hr
    exact mem_row_of_mem (mem_row_of_ne hr (ne_of_used hused hrfree).symm)

omit hused in
/-- A resize in place, of which `total` bytes are cut. -/
theorem reshapes_stayed {newSize total : Nat} (hptr : c.payload ≠ 0)
    (htotal : inPlace s c.payload newSize = total)
    (hroom : newSize ≤ c.size + rightFree s c.payload)
    (hcut : newSize + 16 ≤ total → blockSize s'.mem c.addr = newSize ∧
      ListsBlock s' (c.addr + newSize) (total - newSize))
    (hwhole : total < newSize + 16 → blockSize s'.mem c.addr = total) :
    Reshapes s c.payload newSize s' c.payload := by
  have hc : c ∈ L.blocks := by simp [hblocks]
  have hpayload : c.payload - 4 = c.addr := Nat.add_sub_cancel c.addr 4
  refine ⟨fun hnull => absurd hnull hptr, ?_, fun _ => ?_, fun _ => ?_,
    fun _ hmoved => absurd rfl hmoved, fun _ hmoved => absurd rfl hmoved⟩
  · rw [hpayload, h.blockSize_eq hc]
    exact iff_of_true rfl hroom
  · rw [htotal, hpayload]
    exact hcut
  · rw [htotal, hpayload]
    exact hwhole

/-- Every way of resizing a block reshapes the heap as it should. -/
theorem ReallocCase.reshapes {newSize q : Nat}
    (hcase : ReallocCase mmap s L pre c post newSize s' q L') (h' : Represents theList s' L') :
    Reshapes s c.payload newSize s' q := by
  have hc : c ∈ L.blocks := by simp [hblocks]
  have hptr := h.payload_ne_zero (Layout.mem_usedBlocks.mpr ⟨hc, hused⟩)
  have hright := rightFree_cases h hblocks hused
  have hkeeps : newSize ≤ c.size → inPlace s c.payload newSize = c.size := by
    intro hle
    simp only [inPlace, h.header_eq hc, h.blockSize_eq hc, if_pos hle]
  have hgrows : ∀ d rest, c.size < newSize → post = d :: rest → d.used = false →
      rightFree s c.payload = d.size ∧ inPlace s c.payload newSize = c.size + d.size := by
    intro d rest hgrow hpost hfree
    have hsize : rightFree s c.payload = d.size := by
      rcases hright with ⟨d', rest', hpost', _, hsize⟩ | ⟨hnone, _⟩
      · rw [hsize, (List.cons.inj (hpost.symm.trans hpost')).1]
      · exact absurd (hnone d rest hpost) (by simp [hfree])
    refine ⟨hsize, ?_⟩
    simp only [inPlace, h.header_eq hc, h.blockSize_eq hc, if_neg (Nat.not_le.mpr hgrow), hsize]
  -- Where neither the block nor its neighbour gives the room.
  have hsmall : c.size < newSize →
      (∀ d rest, post = d :: rest → d.used = false → c.size + d.size < newSize) →
      c.size + rightFree s c.payload < newSize := by
    intro hgrow hneighbour
    rcases hright with ⟨d, rest, hpost, hfree, hsize⟩ | ⟨_, hsize⟩
    · rw [hsize]
      exact hneighbour d rest hpost hfree
    · omega
  cases hcase with
  | same hfit hslack =>
      exact reshapes_stayed h hblocks hptr (hkeeps hfit) (by omega)
        (fun hcut => by omega) (fun _ => h.blockSize_eq hc)
  | shrink hge hmod hfit =>
      refine reshapes_stayed h hblocks hptr (hkeeps (by omega)) (by omega)
        (fun _ => ⟨?_, ?_⟩) (fun hslack => by omega)
      · exact h'.blockSize_eq (b := c.taken newSize hge hmod) (by simp)
      · exact lists_block h' (f := c.rest newSize hmod hfit) (by simp) rfl
  | @growCut _ d rest hge hmod hgrow hpost hfree hfit =>
      obtain ⟨hsize, htotal⟩ := hgrows d rest hgrow hpost hfree
      have hjoin : (c.join d).size = c.size + d.size := rfl
      refine reshapes_stayed h hblocks hptr htotal (by omega)
        (fun _ => ⟨?_, ?_⟩) (fun hslack => by omega)
      · exact h'.blockSize_eq (b := (c.join d).taken newSize hge hmod) (by simp)
      · exact lists_block h' (f := (c.join d).rest newSize hmod hfit) (by simp) rfl
  | @growWhole _ d rest hgrow hpost hfree hexact =>
      obtain ⟨hsize, htotal⟩ := hgrows d rest hgrow hpost hfree
      have hjoin : (c.join d).size = c.size + d.size := rfl
      refine reshapes_stayed h hblocks hptr htotal (by omega)
        (fun hcut => by omega) (fun _ => ?_)
      exact h'.blockSize_eq
        (b := (c.join d).taken (c.join d).size (c.join d).size_ge (c.join d).size_mod) (by simp)
  | refused hgrow hneighbour hmalloc =>
      have hbase := h.room.base_ne_zero (List.ne_nil_of_mem hc)
      obtain ⟨steps, rfl⟩ := hmalloc.eq_of_refused rfl hbase
      refine ⟨fun _ => ⟨rfl, rfl⟩, ?_, fun heq => absurd heq.symm hptr, fun heq => absurd heq.symm hptr,
        fun hq => absurd rfl hq, fun hq => absurd rfl hq⟩
      have hpayload : c.payload - 4 = c.addr := Nat.add_sub_cancel c.addr 4
      have hlt := hsmall hgrow hneighbour
      rw [hpayload, h.blockSize_eq hc]
      exact iff_of_false (fun heq => hptr heq.symm) (by omega)
  | moved hgrow hneighbour hmalloc hgain hroom hblocks₁ hmerge hmerge' =>
      exact reshapes_moved h hblocks hused h' hmalloc hgain hblocks₁ hmerge hmerge'
        (hsmall hgrow hneighbour)

end Around

section Wrap

variable {mmap : Mmap}

/-- A sum that wraps around the address space becomes the new top. -/
theorem extendHeap_wraps {ι : Type} (account : Nat → AllocStat → AllocStat) (mmap : Mmap)
    {s : Globals ι} {need pad : Nat} (hbase : s.arenaBase ≠ 0) (hlo : s.heapLo ≠ 0)
    (hcur : s.arenaCur ≤ s.arenaEnd) (hpad : ptrSub 12 s.arenaCur % 16 = pad)
    (hneed : need + 16 ≤ 2 ^ 64) (hend : s.arenaEnd < 2 ^ 64)
    (hwraps : 2 ^ 64 ≤ s.arenaCur + need + pad) :
    (extendHeap account mmap s need).1.heapLo = s.heapLo ∧
      (extendHeap account mmap s need).1.heapHi + 2 ^ 64 = s.arenaCur + need + pad := by
  have hlt : pad < 16 := by
    rw [← hpad]
    exact Nat.mod_lt _ (by decide)
  have hsum : ptrAdd need (ptrSub 12 s.arenaCur % 16) = need + pad := by
    rw [hpad]
    exact ptrAdd_of_lt (by omega)
  have hplace : ptrAdd s.arenaCur (need + pad) + 2 ^ 64 = s.arenaCur + need + pad := by
    unfold ptrAdd
    omega
  generalize hnew : ptrAdd s.arenaCur (need + pad) = cur' at hplace
  have hsecond : arenaExtend mmap s (need + pad) = ({ s with arenaCur := cur' }, s.arenaCur) := by
    unfold arenaExtend
    rw [if_neg hbase]
    unfold moveBreak
    rw [if_neg (by omega), hnew, if_neg (by omega)]
  have hthird : arenaExtend mmap { s with arenaCur := cur' } 0 =
      ({ s with arenaCur := cur' }, cur') := arenaExtend_zero hbase
  simp only [extendHeap, arenaExtend_zero hbase, hsum, hsecond, hthird]
  by_cases hfail : s.arenaCur = mapFailed
  · rw [if_pos hfail]
    exact ⟨rfl, hplace⟩
  · rw [if_neg hfail, if_neg hlo]
    exact ⟨rfl, hplace⟩

variable {s s' : State} {L : Layout Unit} {c : Block} {size q : Nat}

/-- A resize that does not reach the arena safely puts the top below the bottom. -/
theorem myRealloc_wraps (h : Represents theList s L) (hc : c ∈ Layout.usedBlocks L.blocks)
    (hpos : size ≠ 0)
    (hnot : ¬ PassesSafely theList mmap s (request s (.realloc c.payload size)))
    (heq : myRealloc mmap s c.payload size = some (s', q)) :
    s'.heapLo ≠ 0 ∧ s'.heapHi < s'.heapLo := by
  have hptr := h.payload_ne_zero hc
  have hrow := (Layout.mem_usedBlocks.mp hc).1
  have hne := List.ne_nil_of_mem hrow
  have hbase := h.room.base_ne_zero hne
  obtain ⟨_, hlow, hend, hstop⟩ := h.arena.region hbase
  have hcur := (h.arena.top hbase).2
  have hlo := (h.arena.tiles hne).1
  obtain ⟨hmod, hbound⟩ := reallocSize_bounds size
  have hneed := chunkNeed_rounded hmod (by omega)
  simp only [request, hptr, hpos, ↓reduceIte] at hnot
  have hmoves : moves s c.payload (reallocSize size) = true := by
    by_contra hstays
    rw [if_neg hstays] at hnot
    exact hnot fun n hn => by simp at hn
  rw [if_pos hmoves] at hnot
  have hmisses : ScanMisses theList s (reallocSize size) ∧
      ¬ ArenaSafe mmap s (chunkNeed (reallocSize size)) := by
    constructor
    · by_contra hfound
      exact hnot fun n hn hmiss => absurd (Option.some.inj hn ▸ hmiss) hfound
    · intro hsafe
      exact hnot fun n hn _ => Option.some.inj hn ▸ hsafe
  simp only [myRealloc, hptr, hpos, ↓reduceIte] at heq
  rcases resizeBlock_arena heq with ⟨hstays, _⟩ | ⟨_, s₁, p, hmalloc, hsame⟩
  · rw [hmoves] at hstays
    exact absurd hstays (by decide)
  · rw [hsame.heapLo, hsame.heapHi]
    rcases mallocWith_arena hmalloc with ⟨hfound, _⟩ | ⟨_, steps, rfl⟩
    · exact absurd hmisses.1 hfound
    · have hharm := hmisses.2
      unfold ArenaSafe at hharm
      rw [if_neg hbase] at hharm
      have hpad := Nat.mod_lt (ptrSub 12 s.arenaCur) (show 0 < 16 by decide)
      generalize hp : ptrSub 12 s.arenaCur % 16 = pad at hpad hharm
      obtain ⟨hlo', hhi'⟩ := extendHeap_wraps (fun _ stat => stat) mmap
        (s := addScanSteps s steps) hbase (show s.heapLo ≠ 0 by omega) hcur hp
        (chunkNeed_le (reallocSize size)) (show s.arenaEnd < 2 ^ 64 by omega)
        (Nat.le_of_not_lt hharm)
      have hlo₀ : (addScanSteps s steps).heapLo = s.heapLo := rfl
      have hcur₀ : (addScanSteps s steps).arenaCur = s.arenaCur := rfl
      rw [hlo₀] at hlo'
      rw [hcur₀, hneed] at hhi'
      unfold arenaSize at hstop hend
      rw [hneed] at hlo' ⊢
      omega

end Wrap

/-- `my_realloc(ptr, size)` with the result `q` has kept the data and left the blocks
as a resize should leave them, in a heap that has its shape. -/
structure Resized (w : Client Unit) (ptr size : Nat) (w' : Client Unit) (q : Nat) : Prop where
  keeps : KeepsData w ptr size w' q
  shape : ∃ headers nodes, HeapShape theList w' headers nodes
  reshapes : Reshapes w.heap ptr (chunkNeed size) w'.heap q

section Resized

variable {mmap : Mmap} {w : Client Unit} {ptr size : Nat}

/-- A resize that reaches the arena safely, if it reaches it. -/
theorem resized_of_safe (hsound : mmap.Sound) (hinv : Inv theList w) (hptr : w.Holds ptr)
    (hpos : size ≠ 0) (hsize : size ≤ 2 ^ 32 - 24)
    (hsafe : PassesSafely theList mmap w.heap (request w.heap (.realloc ptr size))) :
    ∃ w' q, w.exec (api mmap) (.realloc ptr size) = some (w', q) ∧ Resized w ptr size w' q := by
  have hadmits : Admits mmap w (.realloc ptr size) :=
    ⟨⟨⟨Or.inr hptr, show size < 2 ^ 64 by omega⟩, hsize⟩, hsafe⟩
  obtain ⟨hallows, hok⟩ := hadmits.safe
  obtain ⟨w', q, hexec, hcall, hinv', ⟨p, hp⟩, hkeeps⟩ :=
    (contract hsound).keepsData hinv hptr hpos hallows hok
  refine ⟨w', q, hexec, ?_⟩
  obtain ⟨L, h, howns⟩ := hinv
  obtain ⟨n, hmem⟩ := hptr
  obtain ⟨c, hc, rfl, _⟩ := howns.block_of_mem hmem
  obtain ⟨hrow, hused⟩ := Layout.mem_usedBlocks.mp hc
  obtain ⟨pre, post, hblocks⟩ := List.append_of_mem hrow
  have hzero := h.payload_ne_zero hc
  have hround := reallocSize_eq (show size + 24 ≤ 2 ^ 32 by omega)
  obtain ⟨hge, hmod, hfit, hbound, _⟩ := chunkNeed_bounds (show size + 40 ≤ 2 ^ 64 by omega)
  obtain ⟨s', q', L', heq, hcase, hrep, _, hdata⟩ :=
    resizeBlock_spec h hblocks hused hsound hge hmod (by omega) fun hmoves => by
      rw [← hround] at hmoves ⊢
      exact hsafe _ (by simp [request, hzero, hpos, hmoves])
  have hresult : some (s', q') = some (w'.heap, q) := by
    rw [← hcall, ← heq, ← hround]
    simp [api, myRealloc, hzero, hpos]
  obtain ⟨rfl, rfl⟩ := Prod.mk.inj (Option.some.inj hresult)
  refine ⟨hkeeps fun hq i hi => ?_, hinv'.heapShape (hinv'.heapLo_ne_zero hp),
    hcase.reshapes h hblocks hused hrep⟩
  rw [h.chunk_eq hrow] at hi
  exact hdata hq i (by omega)

/-- In every state that admitted calls lead to, for every live block and every size
that fits into a tag: `my_realloc` returns and keeps the data exactly when its
request, if it makes one that misses the list, reaches the arena safely. -/
theorem resize_keeps_data (hsound : mmap.Sound)
    (hreach : Runs.Reach (Client.step (api mmap)) (Admits mmap) (Client.initial Unit) w)
    (hptr : w.Holds ptr) (hpos : 1 ≤ size) (hsize : size ≤ 2 ^ 32 - 24) :
    (∃ w' q, w.exec (api mmap) (.realloc ptr size) = some (w', q) ∧
        Resized w ptr size w' q) ↔
      PassesSafely theList mmap w.heap (request w.heap (.realloc ptr size)) := by
  have hinv := reach_inv hsound hreach
  constructor
  · rintro ⟨w', q, hexec, hresized⟩
    by_contra hnot
    obtain ⟨hcall, _⟩ := Client.exec_resize (by omega) hexec
    obtain ⟨L, h, howns⟩ := hinv
    obtain ⟨n, hmem⟩ := hptr
    obtain ⟨c, hc, rfl, _⟩ := howns.block_of_mem hmem
    obtain ⟨_, htop⟩ := myRealloc_wraps h hc (by omega) hnot hcall
    obtain ⟨headers, nodes, hshape⟩ := hresized.shape
    have hle := hshape.tiled.le
    omega
  · exact fun hsafe => resized_of_safe hsound hinv hptr (by omega) hsize hsafe

end Resized

/-- A block of 48 bytes with data in it moves behind its neighbour. -/
theorem resize_keeps_data_example :
    ∃ w, Runs.run (Client.step (api lowRegion)) (Client.initial Unit)
        [.malloc 40, .write 4112 7, .malloc 8] = some w ∧
      ∃ w' q, w.exec (api lowRegion) (.realloc 4112 100) = some (w', q) ∧
        Resized w 4112 100 w' q := by
  have hfacts : (Runs.run (Client.step (api lowRegion)) (Client.initial Unit)
      [.malloc 40, .write 4112 7, .malloc 8]).map (fun w => (decide (w.Holds 4112),
        decide (PassesSafely theList lowRegion w.heap (request w.heap (.realloc 4112 100))))) =
      some (true, true) := by decide +kernel
  obtain ⟨w, hrun, hw⟩ := Option.map_eq_some_iff.mp hfacts
  obtain ⟨hholds, hsafe⟩ := Prod.mk.inj hw
  have hreach : Runs.Reach (Client.step (api lowRegion)) (Admits lowRegion)
      (Client.initial Unit) w := .of_run .start (by decide +kernel) hrun
  exact ⟨w, hrun, (resize_keeps_data lowRegion_sound hreach (of_decide_eq_true hholds)
    (by decide) (by decide)).mpr (of_decide_eq_true hsafe)⟩

/-- A block that lies 13 modulo 16 stays there. -/
theorem resize_keeps_data_fails : lateRegion.Sound ∧
    ∃ w, Runs.run (Client.step (api lateRegion)) (Client.initial Unit) [.malloc 0] = some w ∧
      Runs.Reach (Client.step (api lateRegion)) (Client.Disciplined (2 ^ 63) (2 ^ 32 - 24))
        (Client.initial Unit) w ∧
      w.Holds 4113 ∧
      ¬ ∃ w' q, w.exec (api lateRegion) (.realloc 4113 4) = some (w', q) ∧
        Resized w 4113 4 w' q := by
  have hfacts : (Runs.run (Client.step (api lateRegion)) (Client.initial Unit)
      [.malloc 0]).map (fun w => (decide (w.Holds 4113),
        (w.exec (api lateRegion) (.realloc 4113 4)).map Prod.snd)) =
      some (true, some 4113) := by decide +kernel
  obtain ⟨w, hrun, hw⟩ := Option.map_eq_some_iff.mp hfacts
  obtain ⟨hholds, hresult⟩ := Prod.mk.inj hw
  refine ⟨lateRegion_sound, w, hrun, .of_run .start (by decide +kernel) hrun,
    of_decide_eq_true hholds, ?_⟩
  rintro ⟨w', q, hexec, hresized⟩
  rw [hexec] at hresult
  have hq : q = 4113 := Option.some.inj hresult
  have haligned := (hresized.keeps.returned (by omega)).2.1
  omega

end FirstFit

end AllocSitter
