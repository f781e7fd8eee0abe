/-
Blocks in hand: between the first and the last write of `my_free` and
`my_realloc` a run of neighbouring blocks is off the lists while its tags are
rewritten.  The lists and the rest of the row do not notice.
-/
import AllocSitter.MallocSpec

namespace AllocSitter

open ByteMemory LinkedChain Tiling

variable {ι : Type}

/-- Where the client's bytes of a block start. -/
def Block.payload (b : Block) : Nat := b.addr + 4

/-- The free block that two neighbours make. -/
def Block.join (b c : Block) : Block :=
  Block.fresh b.addr (b.size + c.size) false
    (by have := b.size_ge; omega)
    (by have := b.size_mod; have := c.size_mod; omega)

namespace Layout

/-- The used blocks of a row. -/
def usedBlocks (blocks : List Block) : List Block := blocks.filter fun b => b.used

theorem mem_usedBlocks {blocks : List Block} {b : Block} :
    b ∈ usedBlocks blocks ↔ b ∈ blocks ∧ b.used = true := by
  simp [usedBlocks]

/-- The used blocks of a run in the middle of a row, and those around it. -/
theorem usedBlocks_middle (pre mid post : List Block) :
    (usedBlocks (pre ++ mid ++ post)).Perm (usedBlocks mid ++ usedBlocks (pre ++ post)) := by
  simp only [usedBlocks, List.filter_append]
  rw [← List.append_assoc]
  exact List.perm_append_comm.append_right _

theorem usedBlocks_used {c : Block} (pre post : List Block) (hused : c.used = true) :
    (usedBlocks (pre ++ c :: post)).Perm (c :: usedBlocks (pre ++ post)) := by
  simp [usedBlocks, hused]

theorem usedBlocks_free {c : Block} (pre post : List Block) (hfree : c.used = false) :
    usedBlocks (pre ++ c :: post) = usedBlocks (pre ++ post) := by
  simp [usedBlocks, hfree]

end Layout

/-- The row is `pre ++ mid ++ post`, the blocks of `mid` are on no list, and the
lists hold exactly the free blocks among the others. -/
structure HeldIn [DecidableEq ι] (shape : Globals ι → List Block → Prop) (binOf : Nat → ι)
    (s : Globals ι) (lists : ι → List Block) (pre mid post : List Block) : Prop where
  threaded : Threaded s.mem s.freeHead (pre ++ mid ++ post)
    (Layout.mk (pre ++ mid ++ post) lists).chains
  arena : shape s (pre ++ mid ++ post)
  binned : Binned binOf lists (pre ++ post)
  length : s.stat.freelistLen = Layout.freeCount (pre ++ post)

abbrev Held [DecidableEq ι] :
    (Nat → ι) → Globals ι → (ι → List Block) → List Block → List Block → List Block → Prop :=
  HeldIn ArenaShape

section Held

variable [DecidableEq ι] {shape : Globals ι → List Block → Prop} {binOf : Nat → ι}
  {s : Globals ι} {lists : ι → List Block} {pre mid mid' post : List Block} {c d : Block}

/-- Take a used block in hand. -/
theorem RepresentsIn.held {L : Layout ι} (h : RepresentsIn shape binOf s L)
    (hblocks : L.blocks = pre ++ c :: post) (hused : c.used = true) :
    HeldIn shape binOf s L.lists pre [c] post := by
  obtain ⟨hthreaded, harena, hbinned, hlength⟩ := h
  rw [hblocks] at hthreaded harena hbinned hlength
  have hrow : pre ++ [c] ++ post = pre ++ c :: post := by simp
  refine ⟨?_, ?_, hbinned.remove_used hused, ?_⟩
  · rw [hrow]
    exact hthreaded
  · rw [hrow]
    exact harena
  · rw [hlength]
    simp [Layout.freeCount, hused]

/-- Nothing is in hand any more. -/
theorem HeldIn.represents (h : HeldIn shape binOf s lists pre [] post) :
    RepresentsIn shape binOf s ⟨pre ++ post, lists⟩ := by
  obtain ⟨hthreaded, harena, hbinned, hlength⟩ := h
  rw [List.append_nil] at hthreaded harena
  exact ⟨hthreaded, harena, hbinned, hlength⟩

/-- Put a used block back into the row. -/
theorem HeldIn.settle (h : HeldIn shape binOf s lists pre (c :: mid) post)
    (hused : c.used = true) : HeldIn shape binOf s lists (pre ++ [c]) mid post := by
  obtain ⟨hthreaded, harena, hbinned, hlength⟩ := h
  have hrow : pre ++ (c :: mid) ++ post = pre ++ [c] ++ mid ++ post := by simp
  rw [hrow] at hthreaded harena
  refine ⟨hthreaded, harena, ?_, ?_⟩
  · have hback := hbinned.insert_used hused
    simpa using hback
  · rw [hlength]
    simp [Layout.freeCount, hused]

theorem row_ne_nil (hc : c ∈ mid) : pre ++ mid ++ post ≠ [] := by
  intro hnil
  simp only [List.append_eq_nil_iff] at hnil
  rw [hnil.1.2] at hc
  simp at hc

variable [LawfulShape shape]

theorem HeldIn.room (h : HeldIn shape binOf s lists pre mid post) :
    ArenaRoom s (pre ++ mid ++ post) :=
  LawfulShape.room h.arena

/-- What lies around the blocks in hand, which cover less than 4 GiB. -/
theorem HeldIn.around {left right : Nat} (h : HeldIn shape binOf s lists pre mid post)
    (hc : c ∈ mid) (hmid : Tiles Block.addr Block.size left mid right) :
    Spread Block.addr Block.size (s.arenaBase + 12) pre left ∧
      Spread Block.addr Block.size right post s.arenaCur ∧ s.arenaCur < 2 ^ 64 ∧
      s.arenaBase + 12 ≤ left ∧ right < left + 2 ^ 32 := by
  have hne : pre ++ mid ++ post ≠ [] := row_ne_nil hc
  have hbase := h.room.base_ne_zero hne
  have hcur := h.room.cur_lt hbase
  obtain ⟨_, _, _, hend⟩ := h.room.region hbase
  obtain ⟨_, htop⟩ := h.room.top hbase
  obtain ⟨hpre, hpost⟩ := (h.room.spread hne).around hmid (List.ne_nil_of_mem hc)
  have hle := hpre.le
  have hle' := hpost.le
  simp only [arenaSize] at hend
  exact ⟨hpre, hpost, hcur, by omega, by omega⟩

/-- The same of a row that fills the region. -/
theorem HeldIn.pieces {left right : Nat} (h : Held binOf s lists pre mid post)
    (hc : c ∈ mid) (hmid : Tiles Block.addr Block.size left mid right) :
    Tiles Block.addr Block.size s.heapLo pre left ∧
      Tiles Block.addr Block.size right post s.arenaCur ∧ s.arenaCur < 2 ^ 64 ∧
      s.arenaBase + 12 ≤ left ∧ right < left + 2 ^ 32 := by
  obtain ⟨_, _, hbounds⟩ := HeldIn.around h hc hmid
  obtain ⟨hpre, hpost⟩ := h.arena.around hmid (List.ne_nil_of_mem hc)
  exact ⟨hpre, hpost, hbounds⟩

/-- A block in hand lies beside every other block. -/
theorem HeldIn.apart (h : HeldIn shape binOf s lists pre mid post) (hc : c ∈ mid)
    (hd : d ∈ pre ++ post) :
    d.addr + d.size ≤ c.addr ∨ c.addr + c.size ≤ d.addr := by
  obtain ⟨right, hleft, hpost⟩ := spread_append.mp (h.room.spread (row_ne_nil hc))
  obtain ⟨left, hpre, hmid⟩ := spread_append.mp hleft
  have hbounds := hmid.bounds hc
  rw [List.mem_append] at hd
  rcases hd with hd | hd
  · have := hpre.bounds hd
    omega
  · have := hpost.bounds hd
    omega

/-- No list goes through a block in hand. -/
theorem HeldIn.off_lists (h : HeldIn shape binOf s lists pre mid post) (hc : c ∈ mid) (i : ι) :
    c.addr ∉ (Layout.mk (pre ++ mid ++ post) lists).chains i := by
  intro hmem
  obtain ⟨d, hd, hdc⟩ := List.mem_map.mp hmem
  obtain ⟨hrow, _, _⟩ := h.binned.mem_iff.mp hd
  have hapart := h.apart hc hrow
  have hge := c.size_ge
  have hge' := d.size_ge
  omega

/-- A used block is on no list. -/
theorem HeldIn.used_off_lists (h : HeldIn shape binOf s lists pre mid post)
    (hd : d ∈ pre ++ post) (hused : d.used = true) (i : ι) :
    d.addr ∉ (Layout.mk (pre ++ mid ++ post) lists).chains i := by
  intro hmem
  obtain ⟨b, hb, hbd⟩ := List.mem_map.mp hmem
  obtain ⟨hrow, hfree, _⟩ := h.binned.mem_iff.mp hb
  have hne : pre ++ mid ++ post ≠ [] := List.ne_nil_of_mem (mem_row_of_mem hrow)
  have heq := block_eq_of_addr (h.room.spread hne) (mem_row_of_mem hrow) (mem_row_of_mem hd) hbd
  exact ne_of_used hused hfree heq.symm

/-- Rewrite the blocks in hand inside the interval they cover. -/
theorem HeldIn.retag {m : Memory} {left right : Nat}
    (h : HeldIn shape binOf s lists pre mid post) (hc : c ∈ mid) (hne' : mid' ≠ [])
    (hmid : Tiles Block.addr Block.size left mid right)
    (hmid' : Tiles Block.addr Block.size left mid' right)
    (hsame : ∀ x, (x < left ∨ right ≤ x) → m x = s.mem x)
    (htagged : ∀ b ∈ mid', b.Tagged m) :
    HeldIn shape binOf { s with mem := m } lists pre mid' post ∧
      ∀ b ∈ pre ++ post, SameOn s.mem m b.addr b.size := by
  obtain ⟨hpre, hpost, hcur, _⟩ := h.around hc hmid
  obtain ⟨hthreaded, hframe⟩ :=
    h.threaded.retag hpre hmid.spread hpost hcur hsame htagged fun b hb i hmem =>
      absurd hmem (h.off_lists hb i)
  refine ⟨⟨hthreaded, ?_, h.binned, h.length⟩, hframe⟩
  exact LawfulShape.same
    (LawfulShape.exchange h.arena hmid hmid' (List.ne_nil_of_mem hc) hne')
    (SameArena.of_mem_stat s m s.stat)

/-- Put a free block in hand on the list of its class. -/
theorem HeldIn.push (h : HeldIn shape binOf s lists pre [c] post) (hfree : c.used = false) :
    RepresentsIn shape binOf (freelistPush s c.addr (binOf c.size))
        ⟨pre ++ [c] ++ post, pushBlock binOf lists c⟩ ∧
      SameOutside s.mem (freelistPush s c.addr (binOf c.size)).mem (c.addr + 4) 8 := by
  have hc : c ∈ [c] := List.mem_singleton_self c
  have hrow : c ∈ pre ++ [c] ++ post := by simp
  obtain ⟨hlow, _, _, hcur, hpage⟩ := h.room.bounds hrow
  obtain ⟨hthreaded, hsame⟩ := h.threaded.push (h.room.spread (row_ne_nil hc)) hcur hrow (by omega)
    (h.off_lists hc) (binOf c.size)
  refine ⟨⟨?_, ?_, ?_, ?_⟩, hsame⟩
  · rw [chains_push]
    exact hthreaded
  · exact LawfulShape.same h.arena (freelistPush_sameArena s _ _)
  · have hback := h.binned.insert_free hfree
    simpa [pushBlock] using hback
  · have hlt : Layout.freeCount (pre ++ post) ≤ Layout.freeCount (pre ++ [c] ++ post) := by
      simp only [Layout.freeCount, List.countP_append]
      omega
    have hlt' := h.room.freeCount_lt
    rw [freelistPush_stat]
    change ptrAdd s.stat.freelistLen 1 = _
    rw [h.length, ptrAdd_of_lt (by omega)]
    simp only [Layout.freeCount, List.countP_append, List.countP_cons, List.countP_nil, hfree]
    simp only [Bool.not_false, ↓reduceIte]
    omega

/-- Give the single block in hand two new tags. -/
theorem HeldIn.retagOne (h : HeldIn shape binOf s lists pre mid post) (hc : c ∈ mid)
    (hmid : Tiles Block.addr Block.size d.addr mid (d.addr + d.size))
    (hfoot : d.foot = d.used) :
    HeldIn shape binOf { s with mem := setTags s.mem d.addr d.head } lists pre [d] post ∧
      ∀ b ∈ pre ++ post,
        SameOn s.mem (setTags s.mem d.addr d.head) b.addr b.size := by
  obtain ⟨_, hpost, hcur, _, hsize⟩ := h.around hc hmid
  have hbound : d.addr + d.size < 2 ^ 64 := Nat.lt_of_le_of_lt hpost.le hcur
  have hsmall : d.size < 2 ^ 32 := by omega
  refine h.retag hc (by simp) hmid ⟨rfl, rfl⟩ ?_ ?_
  · exact fun x hx => setTags_sameOutside s.mem hbound hsmall x hx
  · intro b hb
    rw [List.mem_singleton] at hb
    subst hb
    exact setTags_tagged s.mem hbound hsmall hfoot

/-- Cut the interval in hand into a used front part, which stays, and a free
rest, which goes to the list of its class.  `c` only names the interval. -/
theorem HeldIn.carve {need : Nat} (h : HeldIn shape binOf s lists pre mid post) (hd : d ∈ mid)
    (hmid : Tiles Block.addr Block.size c.addr mid (c.addr + c.size))
    (hge : 16 ≤ need) (hmod : need % 16 = 0) (hfit : need + 16 ≤ c.size) :
    RepresentsIn shape binOf
        (freelistPush { s with mem := cutTags s.mem c need } (c.addr + need)
          (binOf (c.size - need)))
        ⟨pre ++ [c.taken need hge hmod, c.rest need hmod hfit] ++ post,
          pushBlock binOf lists (c.rest need hmod hfit)⟩ ∧
      (∀ b ∈ pre ++ post, SameOn s.mem
        (freelistPush { s with mem := cutTags s.mem c need } (c.addr + need)
          (binOf (c.size - need))).mem b.addr b.size) ∧
      SameOn s.mem
        (freelistPush { s with mem := cutTags s.mem c need } (c.addr + need)
          (binOf (c.size - need))).mem (c.addr + 4) (need - 8) := by
  obtain ⟨_, hpost, hcur, _, hsize⟩ := h.around hd hmid
  have hend : c.addr + c.size < 2 ^ 64 := Nat.lt_of_le_of_lt hpost.le hcur
  obtain ⟨htagged₁, htagged₂, houtside, hinner⟩ :=
    cutTags_spec s.mem hge hmod hfit hend (by omega)
  obtain ⟨hcut, hframe⟩ := h.retag hd (by simp) hmid (tiles_cut hge hmod hfit) houtside
    (by simp [htagged₁, htagged₂])
  obtain ⟨hrep, hsame⟩ := (hcut.settle rfl).push rfl
  have hrow : pre ++ [c.taken need hge hmod] ++ [c.rest need hmod hfit] ++ post =
      pre ++ [c.taken need hge hmod, c.rest need hmod hfit] ++ post := by simp
  rw [hrow] at hrep
  refine ⟨hrep, ?_, ?_⟩
  · intro b hb
    apply (hframe b hb).trans
    apply hsame.sameOn
    have hapart := hcut.apart (c := c.rest need hmod hfit) (by simp) hb
    have hge' := (c.rest need hmod hfit).size_ge
    omega
  · apply hinner.trans
    apply hsame.sameOn
    change c.addr + 4 + (need - 8) ≤ c.addr + need + 4 ∨ _
    omega

/-- Clear the flag in the header of the used block in hand. -/
theorem HeldIn.release (h : HeldIn shape binOf s lists pre [c] post) (hused : c.used = true) :
    HeldIn shape binOf
        { s with mem := store s.mem c.addr 4 (load s.mem c.addr 4 / 2 * 2) }
        lists pre [c.release] post ∧
      ∀ b ∈ pre ++ post, SameOn s.mem
        (store s.mem c.addr 4 (load s.mem c.addr 4 / 2 * 2)) b.addr b.size := by
  have hc : c ∈ [c] := List.mem_singleton_self c
  have hmid : Tiles Block.addr Block.size c.addr [c] (c.addr + c.size) := ⟨rfl, rfl⟩
  have hge := c.size_ge
  have hmod := c.size_mod
  obtain ⟨_, _, _, _, hsize⟩ := h.around hc hmid
  obtain ⟨hhead, htail⟩ := h.threaded.tagged c (by simp)
  have hword : load s.mem c.addr 4 / 2 * 2 = c.size := by
    rw [hhead, Block.head, hused]
    simp only [Bool.toNat_true]
    omega
  rw [hword]
  have hsame := store_sameOutside s.mem c.addr 4 c.size
  refine h.retag hc (by simp) hmid ⟨rfl, rfl⟩ (fun x hx => hsame x (by omega)) ?_
  intro b hb
  rw [List.mem_singleton] at hb
  subst hb
  constructor
  · change load (store s.mem c.addr 4 c.size) c.addr 4 = c.size
    rw [load_store_same]
    exact Nat.mod_eq_of_lt (by omega)
  · rw [← show c.tail = c.release.tail from rfl, ← htail]
    exact hsame.load_eq (Or.inr (by change c.addr + 4 ≤ c.addr + c.size - 4; omega))

/-- The statistics other than the length of the lists do not matter. -/
theorem HeldIn.of_stat (h : HeldIn shape binOf s lists pre mid post) {stat : AllocStat}
    (hlen : stat.freelistLen = s.stat.freelistLen) :
    HeldIn shape binOf { s with stat := stat } lists pre mid post :=
  ⟨h.threaded, LawfulShape.same h.arena (SameArena.of_mem_stat s s.mem stat), h.binned,
    hlen.trans h.length⟩

end Held

end AllocSitter
