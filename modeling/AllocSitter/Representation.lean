/-
The abstract heap, a row of blocks and the free lists in link order, and the
relation that says which globals represent it.
-/
import AllocSitter.HeapLayout

namespace AllocSitter

open ByteMemory LinkedChain Tiling

variable {ι : Type}

/-- The blocks from left to right and, for each list, its blocks in link order. -/
structure Layout (ι : Type) where
  blocks : List Block
  lists : ι → List Block

namespace Layout

/-- How many blocks are free. -/
def freeCount (blocks : List Block) : Nat := blocks.countP fun b => !b.used

def empty (ι : Type) : Layout ι := ⟨[], fun _ => []⟩

end Layout

section Binned

variable [DecidableEq ι] (binOf : Nat → ι)

/-- Every free block is on the list of its size class, once, and nothing else
is on any list. -/
def Binned (lists : ι → List Block) (blocks : List Block) : Prop :=
  ∀ i, (lists i).Perm (blocks.filter fun b => !b.used && decide (binOf b.size = i))

variable {binOf} {lists : ι → List Block} {blocks pre post : List Block} {c : Block}

theorem Binned.mem_iff (h : Binned binOf lists blocks) {i : ι} {b : Block} :
    b ∈ lists i ↔ b ∈ blocks ∧ b.used = false ∧ binOf b.size = i := by
  rw [(h i).mem_iff]
  simp

theorem Binned.length_le (h : Binned binOf lists blocks) (i : ι) :
    (lists i).length ≤ blocks.length :=
  (h i).length_eq.trans_le (List.length_filter_le _ blocks)

theorem Binned.remove (h : Binned binOf lists (pre ++ c :: post)) {i : ι}
    {front back : List Block} (hlist : lists i = front ++ c :: back) :
    Binned binOf (Function.update lists i (front ++ back)) (pre ++ post) := by
  have hc : c ∈ lists i := by simp [hlist]
  obtain ⟨_, hfree, hbin⟩ := h.mem_iff.mp hc
  intro j
  have hj := h j
  rw [List.filter_append] at hj ⊢
  by_cases hji : j = i
  · subst hji
    rw [Function.update_self]
    rw [hlist, List.filter_cons_of_pos (by simp [hfree, hbin])] at hj
    have hfront : (front ++ c :: back).Perm (c :: (front ++ back)) := List.perm_middle
    exact (hfront.symm.trans (hj.trans List.perm_middle)).cons_inv
  · rw [Function.update_of_ne hji]
    rwa [List.filter_cons_of_neg (by simp [hbin, Ne.symm hji])] at hj

theorem Binned.insert_used (h : Binned binOf lists (pre ++ post))
    (hused : c.used = true) : Binned binOf lists (pre ++ c :: post) := by
  intro j
  have hj := h j
  rw [List.filter_append] at hj ⊢
  rwa [List.filter_cons_of_neg (by simp [hused])]

theorem Binned.remove_used (h : Binned binOf lists (pre ++ c :: post))
    (hused : c.used = true) : Binned binOf lists (pre ++ post) := by
  intro j
  have hj := h j
  rw [List.filter_append] at hj ⊢
  rwa [List.filter_cons_of_neg (by simp [hused])] at hj

theorem Binned.insert_free (h : Binned binOf lists (pre ++ post))
    (hfree : c.used = false) :
    Binned binOf
      (Function.update lists (binOf c.size) (c :: lists (binOf c.size)))
      (pre ++ c :: post) := by
  intro j
  have hj := h j
  rw [List.filter_append] at hj ⊢
  by_cases hjc : j = binOf c.size
  · subst hjc
    rw [Function.update_self, List.filter_cons_of_pos (by simp [hfree])]
    exact (hj.cons c).trans List.perm_middle.symm
  · rw [Function.update_of_ne hjc, List.filter_cons_of_neg (by simp [Ne.symm hjc])]
    exact hj

end Binned

/-- The arena globals fit the row: no region and no block at first, then a
region with an untouched break, then blocks that fill it from `base + 12` up to
the break. -/
structure ArenaShape (s : Globals ι) (blocks : List Block) : Prop where
  unmapped : s.arenaBase = 0 → blocks = []
  untouched : blocks = [] → s.heapLo = 0 ∧ s.arenaCur = s.arenaBase
  region : s.arenaBase ≠ 0 →
    s.arenaBase % 4096 = 0 ∧ 4096 ≤ s.arenaBase ∧
      s.arenaBase + arenaSize < 2 ^ 64 ∧ s.arenaEnd = s.arenaBase + arenaSize
  top : s.arenaBase ≠ 0 → s.heapHi = s.arenaCur ∧ s.arenaCur ≤ s.arenaEnd
  tiles : blocks ≠ [] → s.heapLo = s.arenaBase + 12 ∧
    Tiles Block.addr Block.size s.heapLo blocks s.arenaCur

/-- What is left of this where bytes were skipped between the blocks: they lie in
the region, from left to right, and end below the break. -/
structure ArenaRoom (s : Globals ι) (blocks : List Block) : Prop where
  unmapped : s.arenaBase = 0 → blocks = []
  idle : s.arenaBase = 0 → s.arenaCur = 0
  region : s.arenaBase ≠ 0 →
    s.arenaBase % 4096 = 0 ∧ 4096 ≤ s.arenaBase ∧
      s.arenaBase + arenaSize < 2 ^ 64 ∧ s.arenaEnd = s.arenaBase + arenaSize
  top : s.arenaBase ≠ 0 → s.arenaBase ≤ s.arenaCur ∧ s.arenaCur ≤ s.arenaEnd
  spread : blocks ≠ [] →
    Spread Block.addr Block.size (s.arenaBase + 12) blocks s.arenaCur

/-- The globals that only `arena_extend` and the end of `my_malloc` assign. -/
structure SameArena (s s' : Globals ι) : Prop where
  heapLo : s'.heapLo = s.heapLo
  heapHi : s'.heapHi = s.heapHi
  arenaBase : s'.arenaBase = s.arenaBase
  arenaCur : s'.arenaCur = s.arenaCur
  arenaEnd : s'.arenaEnd = s.arenaEnd
  mmapCalls : s'.mmapCalls = s.mmapCalls

theorem SameArena.refl (s : Globals ι) : SameArena s s := ⟨rfl, rfl, rfl, rfl, rfl, rfl⟩

theorem SameArena.of_mem_stat (s : Globals ι) (m : Memory) (stat : AllocStat) :
    SameArena s { s with mem := m, stat := stat } := ⟨rfl, rfl, rfl, rfl, rfl, rfl⟩

theorem SameArena.trans {s s' s'' : Globals ι} (h : SameArena s s')
    (h' : SameArena s' s'') : SameArena s s'' :=
  ⟨h'.1.trans h.1, h'.2.trans h.2, h'.3.trans h.3, h'.4.trans h.4, h'.5.trans h.5,
    h'.6.trans h.6⟩

/-- What the lists need of a shape of the row: room for the blocks, and no care for
a change inside the row. -/
class LawfulShape (shape : Globals ι → List Block → Prop) : Prop where
  room : ∀ {s blocks}, shape s blocks → ArenaRoom s blocks
  same : ∀ {s s' blocks}, shape s blocks → SameArena s s' → shape s' blocks
  exchange : ∀ {s pre mid mid' post left right}, shape s (pre ++ mid ++ post) →
    Tiles Block.addr Block.size left mid right →
    Tiles Block.addr Block.size left mid' right → mid ≠ [] → mid' ≠ [] →
    shape s (pre ++ mid' ++ post)

/-- The addresses on the lists. -/
def Layout.chains (L : Layout ι) : ι → List Nat := fun i => (L.lists i).map Block.addr

/-- The globals `s` represent the abstract heap `L`, whose row has the given shape. -/
structure RepresentsIn [DecidableEq ι] (shape : Globals ι → List Block → Prop)
    (binOf : Nat → ι) (s : Globals ι) (L : Layout ι) : Prop where
  threaded : Threaded s.mem s.freeHead L.blocks L.chains
  arena : shape s L.blocks
  binned : Binned binOf L.lists L.blocks
  length : s.stat.freelistLen = Layout.freeCount L.blocks

/-- The row fills the region up to the break. -/
abbrev Represents [DecidableEq ι] : (Nat → ι) → Globals ι → Layout ι → Prop :=
  RepresentsIn ArenaShape

/-- The blocks lie somewhere in the region. -/
abbrev Pooled [DecidableEq ι] : (Nat → ι) → Globals ι → Layout ι → Prop :=
  RepresentsIn ArenaRoom

namespace ArenaRoom

variable {s : Globals ι} {blocks : List Block}

theorem base_ne_zero (h : ArenaRoom s blocks) (hne : blocks ≠ []) :
    s.arenaBase ≠ 0 := fun hbase => hne (h.unmapped hbase)

theorem cur_lt (h : ArenaRoom s blocks) (hbase : s.arenaBase ≠ 0) :
    s.arenaCur < 2 ^ 64 := by
  obtain ⟨_, _, hwrap, hend⟩ := h.region hbase
  obtain ⟨_, hcur⟩ := h.top hbase
  omega

/-- Where a block of the row can lie, and how large it can be. -/
theorem bounds (h : ArenaRoom s blocks) {b : Block} (hb : b ∈ blocks) :
    s.arenaBase + 12 ≤ b.addr ∧ b.addr + b.size ≤ s.arenaCur ∧ b.size < 2 ^ 32 ∧
      s.arenaCur < 2 ^ 64 ∧ 4096 ≤ s.arenaBase := by
  have hne : blocks ≠ [] := List.ne_nil_of_mem hb
  have hbase := h.base_ne_zero hne
  obtain ⟨_, hpage, _, hend⟩ := h.region hbase
  obtain ⟨_, hcur⟩ := h.top hbase
  have hbounds := (h.spread hne).bounds hb
  have hlt := h.cur_lt hbase
  simp only [arenaSize] at hend
  omega

theorem length_lt (h : ArenaRoom s blocks) : blocks.length < 2 ^ 32 := by
  by_cases hne : blocks = []
  · simp [hne]
  · have hbase := h.base_ne_zero hne
    obtain ⟨_, _, _, hend⟩ := h.region hbase
    obtain ⟨_, hcur⟩ := h.top hbase
    have hlen := (h.spread hne).length_le (fun b _ => by have := b.size_ge; omega)
    simp only [arenaSize] at hend
    omega

theorem freeCount_lt (h : ArenaRoom s blocks) : Layout.freeCount blocks < 2 ^ 32 :=
  Nat.lt_of_le_of_lt List.countP_le_length h.length_lt

end ArenaRoom

instance : LawfulShape (@ArenaRoom ι) where
  room h := h
  same := by
    intro s s' blocks h hs'
    obtain ⟨_, _, hbase, hcur, hend, _⟩ := hs'
    obtain ⟨hunmapped, hidle, hregion, htop, hspread⟩ := h
    refine ⟨?_, ?_, ?_, ?_, ?_⟩
    · rwa [hbase]
    · rwa [hbase, hcur]
    · rwa [hbase, hend]
    · rwa [hbase, hcur, hend]
    · rwa [hbase, hcur]
  exchange := by
    intro s pre mid mid' post left right h hmid hmid' hne hne'
    have hrow : pre ++ mid ++ post ≠ [] := by simp [hne]
    obtain ⟨hpre, hpost⟩ := (h.spread hrow).around hmid hne
    refine ⟨fun hbase => absurd (h.unmapped hbase) hrow, h.idle, h.region, h.top, fun _ => ?_⟩
    exact spread_append.mpr ⟨right, spread_append.mpr ⟨left, hpre, hmid'.spread⟩, hpost⟩

namespace ArenaShape

variable {s : Globals ι} {blocks : List Block}

theorem room (h : ArenaShape s blocks) : ArenaRoom s blocks := by
  refine ⟨h.unmapped, fun hbase => ?_, h.region, fun hbase => ⟨?_, (h.top hbase).2⟩,
    fun hne => ?_⟩
  · rw [(h.untouched (h.unmapped hbase)).2, hbase]
  · by_cases hne : blocks = []
    · exact Nat.le_of_eq (h.untouched hne).2.symm
    · obtain ⟨hlo, htiles⟩ := h.tiles hne
      have hle := htiles.le
      omega
  · obtain ⟨hlo, htiles⟩ := h.tiles hne
    exact hlo ▸ htiles.spread

theorem addr_mod (h : ArenaShape s blocks) {b : Block} (hb : b ∈ blocks) :
    b.addr % 16 = 12 := by
  have hne : blocks ≠ [] := List.ne_nil_of_mem hb
  obtain ⟨hpage, _⟩ := h.region (h.room.base_ne_zero hne)
  obtain ⟨hlo, htiles⟩ := h.tiles hne
  have hmod := htiles.addr_mod (k := 16) (fun c _ => c.size_mod) hb
  omega

/-- The break stands where the next header must go. -/
theorem cur_mod (h : ArenaShape s blocks) (hne : blocks ≠ []) :
    s.arenaCur % 16 = 12 := by
  obtain ⟨hpage, _⟩ := h.region (h.room.base_ne_zero hne)
  obtain ⟨hlo, htiles⟩ := h.tiles hne
  have hmod := htiles.hi_mod (k := 16) (fun c _ => c.size_mod)
  omega

/-- The row around a run of its blocks. -/
theorem around {pre mid post : List Block} {left right : Nat}
    (h : ArenaShape s (pre ++ mid ++ post))
    (hmid : Tiles Block.addr Block.size left mid right) (hne : mid ≠ []) :
    Tiles Block.addr Block.size s.heapLo pre left ∧
      Tiles Block.addr Block.size right post s.arenaCur := by
  obtain ⟨_, htiles⟩ := h.tiles (by simp [hne])
  obtain ⟨right', hleft, hpost⟩ := tiles_append.mp htiles
  obtain ⟨left', hpre, hmid'⟩ := tiles_append.mp hleft
  obtain ⟨rfl, rfl⟩ := hmid.ends_unique hne hmid'
  exact ⟨hpre, hpost⟩

theorem of_same {s' : Globals ι} (h : ArenaShape s blocks) (hs' : SameArena s s') :
    ArenaShape s' blocks := by
  obtain ⟨hlo, hhi, hbase, hcur, hend, _⟩ := hs'
  obtain ⟨hunmapped, huntouched, hregion, htop, htiles⟩ := h
  refine ⟨?_, ?_, ?_, ?_, ?_⟩
  · rwa [hbase]
  · rwa [hlo, hcur, hbase]
  · rwa [hbase, hend]
  · rwa [hbase, hhi, hcur, hend]
  · rwa [hlo, hbase, hcur]

end ArenaShape

instance : LawfulShape (@ArenaShape ι) where
  room := ArenaShape.room
  same := ArenaShape.of_same
  exchange := by
    intro s pre mid mid' post left right h hmid hmid' hne hne'
    have hrow : pre ++ mid ++ post ≠ [] := by simp [hne]
    have hrow' : pre ++ mid' ++ post ≠ [] := by simp [hne']
    obtain ⟨hpre, hpost⟩ := h.around hmid hne
    refine ⟨fun hbase => absurd (h.unmapped hbase) hrow, fun hnil => absurd hnil hrow', h.region,
      h.top, fun _ => ⟨(h.tiles hrow).1, ?_⟩⟩
    exact tiles_append.mpr ⟨right, tiles_append.mpr ⟨left, hpre, hmid'⟩, hpost⟩

section Shaped

variable {shape : Globals ι → List Block → Prop} [LawfulShape shape] [DecidableEq ι]
  {binOf : Nat → ι} {s : Globals ι} {L : Layout ι}

theorem RepresentsIn.room (h : RepresentsIn shape binOf s L) : ArenaRoom s L.blocks :=
  LawfulShape.room h.arena

theorem RepresentsIn.spread (h : RepresentsIn shape binOf s L) {b : Block}
    (hb : b ∈ L.blocks) :
    Spread Block.addr Block.size (s.arenaBase + 12) L.blocks s.arenaCur :=
  h.room.spread (List.ne_nil_of_mem hb)

/-- A used block is on no list. -/
theorem RepresentsIn.used_off_lists (h : RepresentsIn shape binOf s L) {b : Block}
    (hb : b ∈ L.blocks) (hused : b.used = true) (i : ι) : b.addr ∉ L.chains i := by
  intro hmem
  obtain ⟨c, hc, hcb⟩ := List.mem_map.mp hmem
  obtain ⟨hrow, hfree, _⟩ := h.binned.mem_iff.mp hc
  have heq := block_eq_of_addr (h.spread hb) hrow hb hcb
  rw [heq, hused] at hfree
  exact absurd hfree (by simp)

/-- Memory and statistics change, the arena and the row do not. -/
theorem RepresentsIn.of_same {s' : Globals ι} (h : RepresentsIn shape binOf s L)
    (hthreaded : Threaded s'.mem s'.freeHead L.blocks L.chains) (hsame : SameArena s s')
    (hlen : s'.stat.freelistLen = s.stat.freelistLen) : RepresentsIn shape binOf s' L :=
  ⟨hthreaded, LawfulShape.same h.arena hsame, h.binned, hlen.trans h.length⟩

theorem RepresentsIn.pooled (h : Represents binOf s L) : Pooled binOf s L :=
  ⟨h.threaded, h.room, h.binned, h.length⟩

end Shaped

section Represented

variable [DecidableEq ι] {binOf : Nat → ι} {s : Globals ι} {L : Layout ι}

theorem RepresentsIn.tiles (h : Represents binOf s L) {b : Block} (hb : b ∈ L.blocks) :
    Tiles Block.addr Block.size s.heapLo L.blocks s.arenaCur :=
  (h.arena.tiles (List.ne_nil_of_mem hb)).2

/-- The memory says which blocks there are. -/
theorem RepresentsIn.blocks_unique {L' : Layout ι} (h : Represents binOf s L)
    (h' : Represents binOf s L') : L.blocks = L'.blocks := by
  have hunique : ∀ {lo : Nat} {row row' : List Block},
      Tiles Block.addr Block.size lo row s.arenaCur →
      Tiles Block.addr Block.size lo row' s.arenaCur →
      (∀ b ∈ row, b.Tagged s.mem) → (∀ b ∈ row', b.Tagged s.mem) → row = row' := by
    intro lo row
    induction row generalizing lo with
    | nil =>
        intro row' htiles htiles' _ _
        have hends : lo = s.arenaCur := htiles
        cases row' with
        | nil => rfl
        | cons c rest =>
            have hle := htiles'.2.le
            have hge := c.size_ge
            omega
    | cons b rest ih =>
        intro row' htiles htiles' htagged htagged'
        have hle := htiles.2.le
        have hge := b.size_ge
        cases row' with
        | nil =>
            have hends : lo = s.arenaCur := htiles'
            omega
        | cons c rest' =>
            have heq : b = c := (htagged b List.mem_cons_self).unique
              (htagged' c List.mem_cons_self) (htiles.1.trans htiles'.1.symm)
            subst heq
            congr 1
            exact ih htiles.2 htiles'.2
              (fun d hd => htagged d (List.mem_cons_of_mem b hd))
              fun d hd => htagged' d (List.mem_cons_of_mem b hd)
  by_cases hnil : L.blocks = []
  · by_cases hnil' : L'.blocks = []
    · rw [hnil, hnil']
    · have hlo := (h.arena.untouched hnil).1
      have hlo' := (h'.arena.tiles hnil').1
      omega
  · by_cases hnil' : L'.blocks = []
    · have hlo := (h.arena.tiles hnil).1
      have hlo' := (h'.arena.untouched hnil').1
      omega
    · exact hunique (h.arena.tiles hnil).2 (h'.arena.tiles hnil').2 h.threaded.tagged
        h'.threaded.tagged

end Represented

theorem represents_initial [DecidableEq ι] (binOf : Nat → ι) :
    Represents binOf (Globals.initial ι) (Layout.empty ι) where
  threaded := by
    refine ⟨by simp [Layout.empty], fun i => ?_, ?_, ?_⟩
    · simp [Layout.chains, Layout.empty, Globals.initial, linked_nil]
    · simp [Layout.chains, Layout.empty]
    · simp [Layout.chains, Layout.empty]
  arena := by
    constructor <;> simp [Globals.initial, Layout.empty]
  binned := by
    intro i
    simp [Layout.empty]
  length := by simp [Globals.initial, Layout.empty, Layout.freeCount]

end AllocSitter
