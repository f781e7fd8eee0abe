/-
Two runs of `segregated_allocator.c` with the arena at two places and with other bytes in the
blocks: as long as the calls are the same, up to the place, every block lies at the same
distance from the start of the arena and every counter has the same value.
-/
import AllocSitter.ArenaBreak
import AllocSitter.SegregatedSteps

namespace AllocSitter

open ByteMemory LinkedChain Tiling

section Move

variable {ι : Type} {d need : Nat} {b c : Block} {L : Layout ι}

/-- The block `d` bytes further up. -/
def Block.move (d : Nat) (b : Block) : Block := { b with addr := b.addr + d }

@[simp] theorem Block.move_addr : (b.move d).addr = b.addr + d := rfl

@[simp] theorem Block.move_size : (b.move d).size = b.size := rfl

@[simp] theorem Block.move_used : (b.move d).used = b.used := rfl

theorem Block.move_rest (hmod : need % 16 = 0) (hfit : need + 16 ≤ c.size) :
    (c.rest need hmod hfit).move d = (c.move d).rest need hmod hfit := by
  simp only [Block.rest, Block.fresh, Block.move, Nat.add_right_comm]

def Layout.move (d : Nat) (L : Layout ι) : Layout ι :=
  ⟨L.blocks.map (Block.move d), fun i => (L.lists i).map (Block.move d)⟩

@[simp] theorem Layout.move_blocks : (L.move d).blocks = L.blocks.map (Block.move d) := rfl

@[simp] theorem Layout.move_lists (i : ι) :
    (L.move d).lists i = (L.lists i).map (Block.move d) := rfl

theorem Layout.freeCount_move (blocks : List Block) :
    Layout.freeCount (blocks.map (Block.move d)) = Layout.freeCount blocks := by
  rw [Layout.freeCount, Layout.freeCount, List.countP_map]
  rfl

theorem padding_move : padding (L.move d) = padding L := by
  simp [padding, Layout.move]

theorem move_usedBlocks (blocks : List Block) :
    Layout.usedBlocks (blocks.map (Block.move d)) = (Layout.usedBlocks blocks).map (Block.move d) := by
  rw [Layout.usedBlocks, Layout.usedBlocks, List.filter_map]
  rfl

variable [DecidableEq ι] {binOf : Nat → ι} {lists : ι → List Block}

theorem move_update (i : ι) (blocks : List Block) :
    (fun j => (Function.update lists i blocks j).map (Block.move d)) =
      Function.update (fun j => (lists j).map (Block.move d)) i (blocks.map (Block.move d)) := by
  funext j
  by_cases hj : j = i
  · subst hj
    simp
  · simp [hj]

theorem move_pushBlock : (fun j => (pushBlock binOf lists b j).map (Block.move d)) =
    pushBlock binOf (fun j => (lists j).map (Block.move d)) (b.move d) :=
  move_update (binOf b.size) (b :: lists (binOf b.size))

end Move

section Splits

variable {β : Type*} {p : β → Prop} {front front' back back' : List β} {c c' : β}

/-- There is one way to split a list at its first element with a property. -/
theorem split_first_unique (h : front ++ c :: back = front' ++ c' :: back')
    (hfront : ∀ b ∈ front, ¬ p b) (hc : p c) (hfront' : ∀ b ∈ front', ¬ p b) (hc' : p c') :
    front = front' ∧ c = c' ∧ back = back' := by
  induction front generalizing front' with
  | nil =>
      cases front' with
      | nil =>
          obtain ⟨hhead, htail⟩ := List.cons.inj h
          exact ⟨rfl, hhead, htail⟩
      | cons b rest =>
          have hhead : c = b := (List.cons.inj h).1
          exact absurd (hhead ▸ hc) (hfront' b List.mem_cons_self)
  | cons b rest ih =>
      cases front' with
      | nil =>
          have hhead : b = c' := (List.cons.inj h).1
          exact absurd (hhead ▸ hc') (hfront b List.mem_cons_self)
      | cons b' rest' =>
          obtain ⟨hhead, htail⟩ := List.cons.inj h
          obtain ⟨hrest, hmiddle, hback⟩ := ih htail
            (fun x hx => hfront x (List.mem_cons_of_mem b hx))
            (fun x hx => hfront' x (List.mem_cons_of_mem b' hx))
          exact ⟨by rw [hhead, hrest], hmiddle, hback⟩

end Splits

/-- `mmap` gives the region at `base`. -/
def mapAt (base : Nat) : Mmap := fun _ => some base

section Request

variable {ι : Type} [DecidableEq ι] {binOf : Nat → ι} {account : Nat → AllocStat → AllocStat}
  {base d need p p' : Nat} {s s' s₁ s₁' : Globals ι} {L L₁ L₁' : Layout ι}

/-- The arena is at `base`, if it is mapped already. -/
def ArenaAt (base : Nat) (s : Globals ι) : Prop := s.arenaBase = 0 ∨ s.arenaBase = base

/-- Where the break is once the arena is mapped at `base`. -/
def breakAt (base : Nat) (L : Layout ι) : Nat :=
  if L.blocks = [] then base else base + 12 + Layout.bytes L.blocks

omit [DecidableEq ι] in
theorem breakAt_move : breakAt (base + d) (L.move d) = breakAt base L + d := by
  have hsizes : Layout.bytes (L.blocks.map (Block.move d)) = Layout.bytes L.blocks := by
    rw [Layout.bytes, List.map_map]
    rfl
  unfold breakAt Layout.move
  simp only [List.map_eq_nil_iff, hsizes]
  split <;> omega

theorem RepresentsIn.break_eq (h : Represents binOf s L) (hat : ArenaAt base s)
    (hmapped : s.arenaBase ≠ 0) : s.arenaCur = breakAt base L := by
  have hbase := hat.resolve_left hmapped
  unfold breakAt
  split
  · next hnil =>
    have huntouched := (h.arena.untouched hnil).2
    omega
  · next hne =>
    have hlo := (h.arena.tiles hne).1
    have hcur := h.cur_eq hne
    omega

theorem RepresentsIn.row_nodup (h : Represents binOf s L) : L.blocks.Nodup := by
  by_cases hnil : L.blocks = []
  · rw [hnil]
    exact List.nodup_nil
  · have haddr := (h.room.spread hnil).addr_nodup fun b _ => by
      have := b.size_ge
      omega
    exact haddr.of_map

/-- The row is split at a block in one way. -/
theorem RepresentsIn.row_split (h : Represents binOf s L) {pre post pre' post' : List Block}
    {c : Block} (hsplit : L.blocks = pre ++ c :: post) (hsplit' : L.blocks = pre' ++ c :: post') :
    pre = pre' ∧ post = post' := by
  have hnodup := h.row_nodup
  have hbefore : ∀ b ∈ pre, ¬ b = c := by
    rintro b hb rfl
    rw [hsplit, List.nodup_middle] at hnodup
    exact (List.nodup_cons.mp hnodup).1 (List.mem_append_left _ hb)
  have hbefore' : ∀ b ∈ pre', ¬ b = c := by
    rintro b hb rfl
    rw [hsplit', List.nodup_middle] at hnodup
    exact (List.nodup_cons.mp hnodup).1 (List.mem_append_left _ hb)
  obtain ⟨hpre, _, hpost⟩ := split_first_unique (hsplit.symm.trans hsplit') hbefore rfl hbefore' rfl
  exact ⟨hpre, hpost⟩

omit [DecidableEq ι] in
/-- The scan of the moved list finds the moved block. -/
theorem moved_first {i : ι} {front back front' back' : List Block} {c c' : Block}
    (hlist : L.lists i = front ++ c :: back) (hfront : ∀ b ∈ front, b.size < need)
    (hfit : need ≤ c.size) (hlist' : (L.move d).lists i = front' ++ c' :: back')
    (hfront' : ∀ b ∈ front', b.size < need) (hfit' : need ≤ c'.size) :
    front' = front.map (Block.move d) ∧ c' = c.move d ∧ back' = back.map (Block.move d) := by
  have hboth : front' ++ c' :: back' =
      front.map (Block.move d) ++ c.move d :: back.map (Block.move d) := by
    rw [← hlist', Layout.move_lists, hlist, List.map_append, List.map_cons]
  refine split_first_unique (p := fun b => need ≤ b.size) hboth ?_ hfit' ?_ hfit
  · intro b hb
    exact not_le.mpr (hfront' b hb)
  · intro b hb
    obtain ⟨b₀, hb₀, rfl⟩ := List.mem_map.mp hb
    exact not_le.mpr (hfront b₀ hb₀)

/-- A null pointer stays one. -/
def movePtr (d p : Nat) : Nat := if p = 0 then 0 else p + d

theorem movePtr_eq_zero_iff {ptr : Nat} : movePtr d ptr = 0 ↔ ptr = 0 := by
  unfold movePtr
  split <;> omega

theorem movePtr_injective : Function.Injective (movePtr d) := by
  intro ptr ptr' h
  unfold movePtr at h
  split at h <;> split at h <;> omega

theorem movePtr_payload {c : Block} : movePtr d (c.addr + 4) = (c.move d).addr + 4 := by
  rw [movePtr, if_neg (by omega), Block.move_addr]
  omega

omit [DecidableEq ι] in
theorem moved_row {pre post : List Block} {c : Block} (hblocks : L.blocks = pre ++ c :: post) :
    (L.move d).blocks = pre.map (Block.move d) ++ c.move d :: post.map (Block.move d) := by
  rw [Layout.move_blocks, hblocks, List.map_append, List.map_cons]

/-- What the two runs have in common after a request. -/
structure SameRequest (d : Nat) (s₁ : Globals ι) (p : Nat) (L₁ : Layout ι) (s₁' : Globals ι)
    (p' : Nat) (L₁' : Layout ι) : Prop where
  ptr : p' = movePtr d p
  layout : L₁' = L₁.move d
  stat : s₁'.stat = s₁.stat

/-- Where the break has to go, if the arena is to serve the request. -/
theorem MallocCase.top_eq {top : Nat} (h : Represents binOf s L) (hat : ArenaAt base s)
    (htop : (s.arenaBase ≠ 0 ∧ top = s.arenaCur ∧ s'.arenaBase = s.arenaBase) ∨
      (s.arenaBase = 0 ∧ mapAt base s.mmapCalls = some top ∧ s'.arenaBase = top)) :
    top = breakAt base L ∧ s'.arenaBase = base := by
  rcases htop with ⟨hmapped, htop, hbase⟩ | ⟨hunmapped, htop, hbase⟩
  · exact ⟨htop.trans (h.break_eq hat hmapped), hbase.trans (hat.resolve_left hmapped)⟩
  · have hnil := h.arena.unmapped hunmapped
    have heq : base = top := Option.some.inj htop
    exact ⟨by rw [breakAt, if_pos hnil, heq], hbase.trans heq.symm⟩

/-- A request that the arena has served fits. -/
theorem MallocCase.room {top : Nat} (hrep : Represents binOf s₁ L₁) (hbase : s₁.arenaBase = base)
    (hpos : base ≠ 0) (hcur : s₁.arenaCur = top) : top ≤ base + arenaSize := by
  have hmapped : s₁.arenaBase ≠ 0 := hbase ▸ hpos
  obtain ⟨_, _, _, hend⟩ := hrep.arena.region hmapped
  obtain ⟨_, hle⟩ := hrep.arena.top hmapped
  omega

/-- A request that has failed does not fit. -/
theorem MallocCase.no_room (h : Represents binOf s L) (hat : ArenaAt base s)
    (hwhy : (s.arenaBase ≠ 0 ∧ s.arenaEnd < s.arenaCur + need + padding L ∧
        s₁ = addScanSteps s (L.lists (binOf need)).length) ∨
      (s.arenaBase = 0 ∧ (mapAt base s.mmapCalls = none ∨ arenaSize < need + 12) ∧
        s₁.arenaCur = s₁.arenaBase)) :
    base + arenaSize < breakAt base L + need + padding L := by
  rcases hwhy with ⟨hmapped, hfull, _⟩ | ⟨hunmapped, hlarge, _⟩
  · obtain ⟨_, _, _, hend⟩ := h.arena.region hmapped
    rw [← h.break_eq hat hmapped, ← hat.resolve_left hmapped, ← hend]
    exact hfull
  · have hnil := h.arena.unmapped hunmapped
    have hlarge' : arenaSize < need + 12 := hlarge.resolve_left (by simp [mapAt])
    rw [breakAt, if_pos hnil, padding, if_pos hnil]
    omega

omit [DecidableEq ι] in
theorem addScanSteps_stat (hstat : s'.stat = s.stat) (steps : Nat) :
    (addScanSteps s' steps).stat = (addScanSteps s steps).stat := by
  simp only [addScanSteps, hstat]

/-- The same request on the moved heap: the same case, with the moved block. -/
theorem MallocCase.moved (hpos : base ≠ 0) (h : Represents binOf s L)
    (h' : Represents binOf s' (L.move d)) (hat : ArenaAt base s) (hat' : ArenaAt (base + d) s')
    (hstat : s'.stat = s.stat) (hrep : Represents binOf s₁ L₁) (hrep' : Represents binOf s₁' L₁')
    (hcase : MallocCase binOf account (mapAt base) s L need s₁ p L₁)
    (hcase' : MallocCase binOf account (mapAt (base + d)) s' (L.move d) need s₁' p' L₁') :
    SameRequest d s₁ p L₁ s₁' p' L₁' := by
  have hfound : ∀ {front back : List Block} {c : Block},
      L.lists (binOf need) = front ++ c :: back → need ≤ c.size →
      ¬ ∀ b ∈ (L.move d).lists (binOf need), b.size < need := by
    intro front back c hlist hfit hmiss
    have hlt := hmiss (c.move d) (by rw [Layout.move_lists, hlist]; simp)
    rw [Block.move_size] at hlt
    omega
  have hfound' : ∀ {front back : List Block} {c : Block},
      (L.move d).lists (binOf need) = front ++ c :: back → need ≤ c.size →
      ¬ ∀ b ∈ L.lists (binOf need), b.size < need := by
    intro front back c hlist hfit hmiss
    have hc : c ∈ (L.move d).lists (binOf need) := by rw [hlist]; simp
    obtain ⟨b, hb, rfl⟩ := List.mem_map.mp hc
    have hlt := hmiss b hb
    rw [Block.move_size] at hfit
    omega
  cases hcase with
  | split hge hmod hfit hblocks hlist hfront hs hsame =>
      cases hcase' with
      | split hge' hmod' hfit' hblocks' hlist' hfront' hs' hsame' =>
          obtain ⟨rfl, rfl, rfl⟩ :=
            moved_first hlist hfront (by omega) hlist' hfront' (by omega)
          obtain ⟨rfl, rfl⟩ := h'.row_split hblocks' (moved_row hblocks)
          refine ⟨movePtr_payload.symm, ?_, ?_⟩
          · simp only [Layout.move, List.map_append, List.map_cons, List.map_nil, move_pushBlock,
              move_update, Block.move_rest]
            rfl
          · rw [hs, hs', addScanSteps_stat hstat, List.length_map]
      | whole hsize' hblocks' hlist' hfront' hs' hsame' =>
          obtain ⟨_, rfl, _⟩ := moved_first hlist hfront (by omega) hlist' hfront' (by omega)
          rw [Block.move_size] at hsize'
          omega
      | extend _ _ hmiss' => exact absurd hmiss' (hfound hlist (by omega))
      | fail hmiss' => exact absurd hmiss' (hfound hlist (by omega))
  | whole hsize hblocks hlist hfront hs hsame =>
      cases hcase' with
      | split hge' hmod' hfit' hblocks' hlist' hfront' hs' hsame' =>
          obtain ⟨_, rfl, _⟩ := moved_first hlist hfront (by omega) hlist' hfront' (by omega)
          rw [Block.move_size] at hfit'
          omega
      | whole hsize' hblocks' hlist' hfront' hs' hsame' =>
          obtain ⟨rfl, rfl, rfl⟩ :=
            moved_first hlist hfront (by omega) hlist' hfront' (by omega)
          obtain ⟨rfl, rfl⟩ := h'.row_split hblocks' (moved_row hblocks)
          refine ⟨movePtr_payload.symm, ?_, ?_⟩
          · simp only [Layout.move, List.map_append, List.map_cons, List.map_nil, move_update]
            rfl
          · rw [hs, hs', addScanSteps_stat hstat, List.length_map, Layout.move_blocks,
              Layout.freeCount_move]
      | extend _ _ hmiss' => exact absurd hmiss' (hfound hlist (by omega))
      | fail hmiss' => exact absurd hmiss' (hfound hlist (by omega))
  | extend hge hmod hmiss htop hs hcur hlo =>
      obtain ⟨rfl, hbase⟩ := MallocCase.top_eq h hat htop
      cases hcase' with
      | split _ _ _ _ hlist' => exact absurd hmiss (hfound' hlist' (by omega))
      | whole _ _ hlist' => exact absurd hmiss (hfound' hlist' (by omega))
      | extend hge' hmod' hmiss' htop' hs' hcur' hlo' =>
          obtain ⟨rfl, _⟩ := MallocCase.top_eq h' hat' htop'
          have haddr : breakAt (base + d) (L.move d) + padding (L.move d) =
              breakAt base L + padding L + d := by
            rw [breakAt_move, padding_move]
            omega
          refine ⟨?_, ?_, ?_⟩
          · rw [haddr, movePtr, if_neg (by omega)]
            omega
          · rw [haddr]
            simp only [Layout.move, List.map_append, List.map_cons, List.map_nil]
            rfl
          · rw [hs, hs', addScanSteps_stat hstat, Layout.move_lists, List.length_map, padding_move]
      | fail hmiss' hwhy' =>
          have hfits := MallocCase.room hrep hbase hpos hcur
          have hfull := MallocCase.no_room h' hat' hwhy'
          rw [breakAt_move, padding_move] at hfull
          omega
  | fail hmiss hwhy hs =>
      cases hcase' with
      | split _ _ _ _ hlist' => exact absurd hmiss (hfound' hlist' (by omega))
      | whole _ _ hlist' => exact absurd hmiss (hfound' hlist' (by omega))
      | extend hge' hmod' hmiss' htop' hs' hcur' hlo' =>
          obtain ⟨rfl, hbase'⟩ := MallocCase.top_eq h' hat' htop'
          have hfits := MallocCase.room hrep' hbase' (by omega) hcur'
          have hfull := MallocCase.no_room h hat hwhy
          rw [breakAt_move, padding_move] at hfits
          omega
      | fail hmiss' hwhy' hs' =>
          refine ⟨rfl, rfl, ?_⟩
          rw [hs, hs', addScanSteps_stat hstat, Layout.move_lists, List.length_map]

omit [DecidableEq ι] in
theorem arenaExtend_at {n : Nat} (hat : ArenaAt base s)
    (heq : arenaExtend (mapAt base) s n = (s₁, p)) : ArenaAt base s₁ := by
  have hafter : ArenaAt base (arenaExtend (mapAt base) s n).1 := by
    unfold arenaExtend
    split
    · dsimp only [mapAt]
      unfold moveBreak
      split
      · exact .inr rfl
      · split <;> exact .inr rfl
    · unfold moveBreak
      split
      · exact hat
      · split <;> exact hat
  rwa [heq] at hafter

omit [DecidableEq ι] in
theorem extendHeap_arenaAt (hat : ArenaAt base s) :
    ArenaAt base (extendHeap account (mapAt base) s need).1 := by
  rcases hfirst : arenaExtend (mapAt base) s 0 with ⟨s₁, cur⟩
  rcases hsecond : arenaExtend (mapAt base) s₁ (ptrAdd need (ptrSub 12 cur % 16)) with ⟨s₂, q⟩
  rcases hthird : arenaExtend (mapAt base) s₂ 0 with ⟨s₃, hi⟩
  unfold ArenaAt
  rw [(extendHeap_arena account hfirst hsecond hthird).1]
  exact arenaExtend_at (arenaExtend_at (arenaExtend_at hat hfirst) hsecond) hthird

/-- The arena does not leave its place. -/
theorem mallocWith_at {size : Nat} (hat : ArenaAt base s)
    (heq : mallocWith binOf account (mapAt base) s size = some (s₁, p)) : ArenaAt base s₁ := by
  rcases mallocWith_arena heq with ⟨_, hsame⟩ | ⟨_, steps, rfl⟩
  · unfold ArenaAt
    rw [hsame.arenaBase]
    exact hat
  · exact extendHeap_arenaAt hat

end Request

namespace Segregated

section Twins

variable {base d p p' q q' n ptr : Nat} {s s' s₁ s₁' : State} {L L₁ : Layout Bin} {m m' : Memory}

/-- The heaps of two runs: `s'` is `s`, `d` bytes further up. -/
structure Moved (base d : Nat) (s s' : State) (L : Layout Bin) : Prop where
  rep : Represents sizeToBin s L
  rep' : Represents sizeToBin s' (L.move d)
  stat : s'.stat = s.stat
  place : ArenaAt base s
  place' : ArenaAt (base + d) s'

/-- The payloads may hold any bytes. -/
theorem Moved.payload (h : Moved base d s s' L) (hrep : Represents sizeToBin { s with mem := m } L)
    (hrep' : Represents sizeToBin { s' with mem := m' } (L.move d)) :
    Moved base d { s with mem := m } { s' with mem := m' } L :=
  ⟨hrep, hrep', h.stat, h.place, h.place'⟩

theorem Moved.of_case (hpos : base ≠ 0) (h : Moved base d s s' L) {L₁' : Layout Bin} {need : Nat}
    (hplace : ArenaAt base s₁) (hplace' : ArenaAt (base + d) s₁')
    (hrep : Represents sizeToBin s₁ L₁) (hrep' : Represents sizeToBin s₁' L₁')
    (hcase : MallocCase sizeToBin liveAdd (mapAt base) s L need s₁ p L₁)
    (hcase' : MallocCase sizeToBin liveAdd (mapAt (base + d)) s' (L.move d) need s₁' p' L₁') :
    p' = movePtr d p ∧ L₁' = L₁.move d ∧ Moved base d s₁ s₁' L₁ := by
  obtain ⟨hptr, rfl, hstat⟩ :=
    hcase.moved hpos h.rep h.rep' h.place h.place' h.stat hrep hrep' hcase'
  exact ⟨hptr, rfl, hrep, hrep', hstat, hplace, hplace'⟩

variable (hsound : (mapAt base).Sound) (hsound' : (mapAt (base + d)).Sound)

include hsound in
theorem base_ne_zero : base ≠ 0 := by
  obtain ⟨_, hpage, _⟩ := hsound 0 base rfl
  omega

include hsound hsound'

theorem Moved.malloc (h : Moved base d s s' L) (hn : n + 40 ≤ 2 ^ 64)
    (hsafe : RequestSafe sizeToBin (mapAt base) s n)
    (hsafe' : RequestSafe sizeToBin (mapAt (base + d)) s' n)
    (heq : myMalloc (mapAt base) s n = some (s₁, p))
    (heq' : myMalloc (mapAt (base + d)) s' n = some (s₁', p')) :
    p' = movePtr d p ∧ ∃ L₁, Moved base d s₁ s₁' L₁ := by
  obtain ⟨_, _, L₁, hmalloc, hcase, hrep, _⟩ :=
    mallocWith_spec liveAdd_freelistLen h.rep hsound hn hsafe
  obtain ⟨_, _, L₁', hmalloc', hcase', hrep', _⟩ :=
    mallocWith_spec liveAdd_freelistLen h.rep' hsound' hn hsafe'
  obtain ⟨rfl, rfl⟩ := Prod.mk.inj (Option.some.inj (hmalloc.symm.trans heq))
  obtain ⟨rfl, rfl⟩ := Prod.mk.inj (Option.some.inj (hmalloc'.symm.trans heq'))
  obtain ⟨hptr, _, hmoved⟩ := h.of_case (base_ne_zero hsound) (mallocWith_at h.place heq)
    (mallocWith_at h.place' heq') hrep hrep' hcase hcase'
  exact ⟨hptr, L₁, hmoved⟩

theorem Moved.calloc (h : Moved base d s s' L) {nmemb size : Nat}
    (hsafe : Safe (mapAt base) s (.calloc nmemb size))
    (hsafe' : Safe (mapAt (base + d)) s' (.calloc nmemb size))
    (heq : myCalloc (mapAt base) s nmemb size = some (s₁, p))
    (heq' : myCalloc (mapAt (base + d)) s' nmemb size = some (s₁', p')) :
    p' = movePtr d p ∧ ∃ L₁, Moved base d s₁ s₁' L₁ := by
  cases hrequest : callocRequest nmemb size with
  | none =>
      obtain ⟨rfl, rfl⟩ := Prod.mk.inj (Option.some.inj ((callocWith_none hrequest).symm.trans heq))
      obtain ⟨rfl, rfl⟩ :=
        Prod.mk.inj (Option.some.inj ((callocWith_none hrequest).symm.trans heq'))
      exact ⟨rfl, L, h⟩
  | some n =>
      obtain ⟨hn, hrequest₁⟩ := hsafe n hrequest
      obtain ⟨_, hrequest₁'⟩ := hsafe' n hrequest
      obtain ⟨s₂, q, L₁, m, hmalloc, hcalloc, hcase, hrep, hfilled, _⟩ :=
        callocWith_spec liveAdd_freelistLen hsound h.rep hrequest hn hrequest₁
      obtain ⟨s₂', q', L₁', m', hmalloc', hcalloc', hcase', hrep', hfilled', _⟩ :=
        callocWith_spec liveAdd_freelistLen hsound' h.rep' hrequest hn hrequest₁'
      obtain ⟨rfl, rfl⟩ := Prod.mk.inj (Option.some.inj (hcalloc.symm.trans heq))
      obtain ⟨rfl, rfl⟩ := Prod.mk.inj (Option.some.inj (hcalloc'.symm.trans heq'))
      obtain ⟨hptr, rfl, hmoved⟩ := h.of_case (base_ne_zero hsound) (mallocWith_at h.place hmalloc)
        (mallocWith_at h.place' hmalloc') hrep hrep' hcase hcase'
      exact ⟨hptr, L₁, hmoved.payload hfilled hfilled'⟩

omit hsound hsound' in
theorem Moved.free (h : Moved base d s s' L) (howned : L.Owned ptr) :
    ∃ L₁, Moved base d (myFree s ptr) (myFree s' (movePtr d ptr)) L₁ := by
  rcases howned with rfl | ⟨c, hc, rfl⟩
  · exact ⟨L, by rwa [movePtr, if_pos rfl, myFree_null, myFree_null]⟩
  · obtain ⟨hrow, hused⟩ := Layout.mem_usedBlocks.mp hc
    obtain ⟨pre, post, hblocks⟩ := List.append_of_mem hrow
    obtain ⟨hrep, _, hstat, hsame⟩ := myFree_spec h.rep hblocks hused
    obtain ⟨hrep', _, hstat', hsame'⟩ := myFree_spec h.rep' (moved_row hblocks) hused
    have hptr : movePtr d c.payload = (c.move d).payload := movePtr_payload
    rw [hptr]
    refine ⟨_, hrep, ?_, ?_, ?_, ?_⟩
    · convert hrep' using 1
      simp only [Layout.move, List.map_append, List.map_cons, List.map_nil, move_pushBlock]
      rfl
    · rw [hstat, hstat', h.stat, Block.move_size]
    · unfold ArenaAt
      rw [hsame.arenaBase]
      exact h.place
    · unfold ArenaAt
      rw [hsame'.arenaBase]
      exact h.place'

theorem Moved.realloc (h : Moved base d s s' L) {size : Nat} (howned : L.Owned ptr)
    (hsafe : Safe (mapAt base) s (.realloc ptr size))
    (hsafe' : Safe (mapAt (base + d)) s' (.realloc (movePtr d ptr) size))
    (heq : myRealloc (mapAt base) s ptr size = some (s₁, p))
    (heq' : myRealloc (mapAt (base + d)) s' (movePtr d ptr) size = some (s₁', p')) :
    p' = movePtr d p ∧ ∃ L₁, Moved base d s₁ s₁' L₁ := by
  by_cases hnull : ptr = 0
  · have hnull' : movePtr d ptr = 0 := movePtr_eq_zero_iff.mpr hnull
    obtain ⟨hn, hrequest⟩ := hsafe size (by simp [request, hnull])
    obtain ⟨_, hrequest'⟩ := hsafe' size (by simp [request, hnull'])
    rw [myRealloc, if_pos hnull] at heq
    rw [myRealloc, if_pos hnull'] at heq'
    exact h.malloc hsound hsound' hn hrequest hrequest' heq heq'
  have hnull' : movePtr d ptr ≠ 0 := mt movePtr_eq_zero_iff.mp hnull
  by_cases hzero : size = 0
  · rw [myRealloc, if_neg hnull, if_pos hzero] at heq
    rw [myRealloc, if_neg hnull', if_pos hzero] at heq'
    obtain ⟨rfl, rfl⟩ := Prod.mk.inj (Option.some.inj heq)
    obtain ⟨rfl, rfl⟩ := Prod.mk.inj (Option.some.inj heq')
    exact ⟨rfl, h.free howned⟩
  obtain ⟨c, hc, rfl⟩ := howned.resolve_left hnull
  have hptr : movePtr d c.payload = (c.move d).payload := movePtr_payload
  rw [hptr] at hsafe' heq'
  have hc' : c.move d ∈ Layout.usedBlocks (L.move d).blocks := by
    rw [Layout.move_blocks, move_usedBlocks]
    exact List.mem_map_of_mem hc
  obtain ⟨hn, hrequest⟩ := hsafe size (by simp [request, hzero])
  obtain ⟨_, hrequest'⟩ := hsafe' size (by simp [request, hzero])
  obtain ⟨s₂, q, L₁, hmalloc, hcase, hrep, _, hresult⟩ :=
    myRealloc_spec hsound h.rep hc hzero hn hrequest
  obtain ⟨s₂', q', L₁', hmalloc', hcase', hrep', _, hresult'⟩ :=
    myRealloc_spec hsound' h.rep' hc' hzero hn hrequest'
  obtain ⟨hmove, rfl, hmoved⟩ := h.of_case (base_ne_zero hsound) (mallocWith_at h.place hmalloc)
    (mallocWith_at h.place' hmalloc') hrep hrep' hcase hcase'
  rcases hresult with ⟨rfl, hfail⟩ | ⟨s₃, hcopy, hne, hrep₃, hc₁, _, _, hmoves⟩
  · -- There is no new block in either run.
    rcases hresult' with ⟨rfl, hfail'⟩ | ⟨_, _, hne', _⟩
    · obtain ⟨rfl, rfl⟩ := Prod.mk.inj (Option.some.inj (hfail.symm.trans heq))
      obtain ⟨rfl, rfl⟩ := Prod.mk.inj (Option.some.inj (hfail'.symm.trans heq'))
      exact ⟨rfl, L₁, hmoved⟩
    · exact absurd hmove hne'
  · rcases hresult' with ⟨rfl, _⟩ | ⟨s₃', hcopy', _, hrep₃', _, _, _, hmoves'⟩
    · exact absurd (movePtr_eq_zero_iff.mp hmove.symm) hne
    · obtain ⟨rfl, rfl⟩ := Prod.mk.inj (Option.some.inj (hmoves.symm.trans heq))
      obtain ⟨rfl, rfl⟩ := Prod.mk.inj (Option.some.inj (hmoves'.symm.trans heq'))
      refine ⟨hmove, ?_⟩
      rw [hcopy] at hrep₃ ⊢
      rw [hcopy'] at hrep₃' ⊢
      have hfreed := (hmoved.payload hrep₃ hrep₃').free (.inr ⟨c, hc₁, rfl⟩)
      rw [hptr] at hfreed
      exact hfreed

end Twins

section Runs

variable {base d p q q' : Nat} {w w' w₁ w₁' : Client Bin} {call call' : Call}

/-- The call with its pointers moved. -/
def moveCall (d : Nat) : Call → Call
  | .free ptr => .free (movePtr d ptr)
  | .realloc ptr size => .realloc (movePtr d ptr) size
  | .write addr byte => .write (addr + d) byte
  | call => call

def isWrite : Call → Bool
  | .write _ _ => true
  | _ => false

/-- The same call in the other run.  What the clients write is their own business. -/
def Corresponds (d : Nat) (call call' : Call) : Prop :=
  call' = moveCall d call ∨ isWrite call = true ∧ isWrite call' = true

instance : Decidable (Corresponds d call call') := inferInstanceAs (Decidable (_ ∨ _))

theorem Corresponds.eq (h : Corresponds d call call') (hcall : isWrite call = false) :
    call' = moveCall d call := by
  rcases h with heq | ⟨hwrite, _⟩
  · exact heq
  · rw [hcall] at hwrite
    contradiction

theorem Corresponds.write {addr : Nat} {byte : UInt8} (h : Corresponds d (.write addr byte) call') :
    ∃ addr' byte', call' = .write addr' byte' := by
  rcases h with rfl | ⟨_, hwrite⟩
  · exact ⟨_, _, rfl⟩
  · cases call' with
    | write addr' byte' => exact ⟨addr', byte', rfl⟩
    | malloc size => contradiction
    | calloc nmemb size => contradiction
    | free ptr => contradiction
    | realloc ptr size => contradiction
    | statReset => contradiction

def moveEntry (d : Nat) (entry : Nat × Nat) : Nat × Nat := (movePtr d entry.1, entry.2)

theorem hold_move (live : List (Nat × Nat)) (p n : Nat) :
    Client.hold (live.map (moveEntry d)) (movePtr d p) n =
      (Client.hold live p n).map (moveEntry d) := by
  unfold Client.hold
  by_cases hp : p = 0
  · rw [if_pos hp, if_pos (movePtr_eq_zero_iff.mpr hp)]
  · rw [if_neg hp, if_neg (mt movePtr_eq_zero_iff.mp hp)]
    rfl

theorem drop_move (live : List (Nat × Nat)) (ptr : Nat) :
    Client.drop (live.map (moveEntry d)) (movePtr d ptr) =
      (Client.drop live ptr).map (moveEntry d) := by
  unfold Client.drop
  rw [List.filter_map]
  congr 1
  apply List.filter_congr
  intro entry _
  have hiff : movePtr d entry.1 = movePtr d ptr ↔ entry.1 = ptr := movePtr_injective.eq_iff
  simp [moveEntry, hiff]

/-- Two runs in step with each other. -/
structure Alike (base d : Nat) (w w' : Client Bin) : Prop where
  heap : ∃ L, Moved base d w.heap w'.heap L
  live : w'.live = w.live.map (moveEntry d)

theorem alike_initial : Alike base d (Client.initial Bin) (Client.initial Bin) :=
  ⟨⟨Layout.empty Bin, represents_initial sizeToBin, represents_initial sizeToBin, rfl, .inl rfl,
    .inl rfl⟩, rfl⟩

/-- The same call in both runs. -/
theorem Alike.exec (hsound : (mapAt base).Sound) (hsound' : (mapAt (base + d)).Sound)
    (h : Alike base d w w') (hinv : Inv sizeToBin w) (hinv' : Inv sizeToBin w')
    (hcalls : Corresponds d call call') (hadmits : Admits (mapAt base) w call)
    (hadmits' : Admits (mapAt (base + d)) w' call')
    (hexec : w.exec (api (mapAt base)) call = some (w₁, q))
    (hexec' : w'.exec (api (mapAt (base + d))) call' = some (w₁', q')) :
    q' = movePtr d q ∧ Alike base d w₁ w₁' := by
  obtain ⟨⟨L, hmoved⟩, hlive⟩ := h
  obtain ⟨L₀, hrep₀, howns⟩ := hinv
  obtain ⟨L₀', hrep₀', howns'⟩ := hinv'
  rw [hrep₀.blocks_unique hmoved.rep] at howns
  rw [hrep₀'.blocks_unique hmoved.rep'] at howns'
  obtain ⟨hallows, hsafe⟩ := hadmits.safe
  obtain ⟨hallows', hsafe'⟩ := hadmits'.safe
  cases call with
  | malloc size =>
      obtain rfl := hcalls.eq rfl
      obtain ⟨hn, hrequest⟩ := hsafe size rfl
      obtain ⟨_, hrequest'⟩ := hsafe' size rfl
      obtain ⟨heq, hheld⟩ := Client.exec_malloc hexec
      obtain ⟨heq', hheld'⟩ := Client.exec_malloc hexec'
      obtain ⟨rfl, hheap⟩ := hmoved.malloc hsound hsound' hn hrequest hrequest' heq heq'
      exact ⟨rfl, hheap, by rw [hheld, hheld', hlive, hold_move]⟩
  | calloc nmemb size =>
      obtain rfl := hcalls.eq rfl
      obtain ⟨heq, hheld⟩ := Client.exec_calloc hexec
      obtain ⟨heq', hheld'⟩ := Client.exec_calloc hexec'
      obtain ⟨rfl, hheap⟩ := hmoved.calloc hsound hsound' hsafe hsafe' heq heq'
      exact ⟨rfl, hheap, by rw [hheld, hheld', hlive, hold_move]⟩
  | free ptr =>
      obtain rfl := hcalls.eq rfl
      obtain ⟨heq, hheld, rfl⟩ := Client.exec_free hexec
      obtain ⟨heq', hheld', rfl⟩ := Client.exec_free hexec'
      refine ⟨rfl, ?_, by rw [hheld, hheld', hlive, drop_move]⟩
      rw [← Option.some.inj heq, ← Option.some.inj heq']
      exact hmoved.free (howns.owned hallows)
  | realloc ptr size =>
      obtain rfl := hcalls.eq rfl
      obtain ⟨heq, hheld⟩ := Client.exec_realloc hexec
      obtain ⟨heq', hheld'⟩ := Client.exec_realloc hexec'
      obtain ⟨rfl, hheap⟩ :=
        hmoved.realloc hsound hsound' (howns.owned hallows.1) hsafe hsafe' heq heq'
      refine ⟨rfl, hheap, ?_⟩
      rw [hheld, hheld', hlive, drop_move, hold_move]
      simp only [movePtr_eq_zero_iff]
      split <;> rfl
  | write addr byte =>
      obtain ⟨addr', byte', rfl⟩ := hcalls.write
      obtain ⟨rfl, rfl⟩ := Prod.mk.inj (Option.some.inj hexec)
      obtain ⟨rfl, rfl⟩ := Prod.mk.inj (Option.some.inj hexec')
      exact ⟨rfl, ⟨L, hmoved.payload (hmoved.rep.client_write howns hallows)
        (hmoved.rep'.client_write howns' hallows')⟩, hlive⟩
  | statReset =>
      obtain rfl := hcalls.eq rfl
      obtain ⟨rfl, rfl⟩ := Prod.mk.inj (Option.some.inj hexec)
      obtain ⟨rfl, rfl⟩ := Prod.mk.inj (Option.some.inj hexec')
      refine ⟨rfl, ⟨L, ((contract hsound).statReset hmoved.rep).1,
        ((contract hsound').statReset hmoved.rep').1, ?_, hmoved.place, hmoved.place'⟩, hlive⟩
      simp only [api, allocStatReset, hmoved.stat]

/-- Two clients, each with an allocator of its own. -/
structure Twins where
  first : Client Bin
  second : Client Bin

namespace Twins

def initial : Twins := ⟨Client.initial Bin, Client.initial Bin⟩

def step (base d : Nat) (t : Twins) (calls : Call × Call) : Option Twins :=
  (t.first.step (api (mapAt base)) calls.1).bind fun w =>
    (t.second.step (api (mapAt (base + d))) calls.2).map fun w' => ⟨w, w'⟩

def Admits (base d : Nat) (t : Twins) (calls : Call × Call) : Prop :=
  Corresponds d calls.1 calls.2 ∧ Segregated.Admits (mapAt base) t.first calls.1 ∧
    Segregated.Admits (mapAt (base + d)) t.second calls.2

instance (t : Twins) (calls : Call × Call) : Decidable (t.Admits base d calls) :=
  inferInstanceAs (Decidable (_ ∧ _))

/-- What holds of the two runs together, and of each of them. -/
structure Inv (base d : Nat) (t : Twins) : Prop where
  alike : Alike base d t.first t.second
  first : AllocSitter.Inv sizeToBin t.first
  second : AllocSitter.Inv sizeToBin t.second

variable {t t' : Twins} {calls : Call × Call}

theorem Inv.step (hsound : (mapAt base).Sound) (hsound' : (mapAt (base + d)).Sound)
    (h : t.Inv base d) (hadmits : t.Admits base d calls)
    (hstep : t.step base d calls = some t') : t'.Inv base d := by
  obtain ⟨w, hfirst, hrest⟩ := Option.bind_eq_some_iff.mp hstep
  obtain ⟨w', hsecond, rfl⟩ := Option.map_eq_some_iff.mp hrest
  obtain ⟨hcalls, hadmits₁, hadmits₂⟩ := hadmits
  obtain ⟨hallows₁, hsafe₁⟩ := hadmits₁.safe
  obtain ⟨hallows₂, hsafe₂⟩ := hadmits₂.safe
  obtain ⟨⟨_, q⟩, hexec, rfl⟩ := Option.map_eq_some_iff.mp hfirst
  obtain ⟨⟨_, q'⟩, hexec', rfl⟩ := Option.map_eq_some_iff.mp hsecond
  exact ⟨(h.alike.exec hsound hsound' h.first h.second hcalls hadmits₁ hadmits₂ hexec hexec').2,
    (contract hsound).keeps h.first hallows₁ hsafe₁ hfirst,
    (contract hsound').keeps h.second hallows₂ hsafe₂ hsecond⟩

theorem reach_inv (hsound : (mapAt base).Sound) (hsound' : (mapAt (base + d)).Sound)
    (hreach : Runs.Reach (step base d) (Admits base d) initial t) : t.Inv base d := by
  induction hreach with
  | start => exact ⟨alike_initial, inv_initial sizeToBin, inv_initial sizeToBin⟩
  | next _ hadmits hstep ih => exact ih.step hsound hsound' hadmits hstep

end Twins

theorem Moved.used_eq {s s' : State} {L : Layout Bin} (h : Moved base d s s' L) :
    arenaUsedBytes s' = arenaUsedBytes s := by
  have hused : ∀ {base : Nat} {s : State} {L : Layout Bin}, Represents sizeToBin s L →
      ArenaAt base s → arenaUsedBytes s = breakAt base L - base := by
    intro base s L hrep hat
    rw [arenaUsedBytes_eq hrep]
    by_cases hmapped : s.arenaBase = 0
    · have hnil := hrep.arena.unmapped hmapped
      have hcur := (hrep.arena.untouched hnil).2
      rw [breakAt, if_pos hnil]
      omega
    · rw [hrep.break_eq hat hmapped, hat.resolve_left hmapped]
  rw [hused h.rep h.place, hused h.rep' h.place', breakAt_move]
  omega

/-- Two runs of the same calls, one with the arena at `base` and the other with it `d` bytes
further up, with clients that write what they like to their blocks: all counters are the same,
every block lies as far from the start of the arena, and every next call that is admitted
returns in both, with the same pointer up to the `d` bytes. -/
theorem placement_relocates (hsound : (mapAt base).Sound) (hsound' : (mapAt (base + d)).Sound)
    {t : Twins} (hreach : Runs.Reach (Twins.step base d) (Twins.Admits base d) Twins.initial t) :
    t.second.heap.stat = t.first.heap.stat ∧
      arenaUsedBytes t.second.heap = arenaUsedBytes t.first.heap ∧
      t.second.live = t.first.live.map (fun entry => (entry.1 + d, entry.2)) ∧
      (∃ headers, Headers t.first.heap headers ∧
        Headers t.second.heap (headers.map (· + d))) ∧
      ∀ calls, t.Admits base d calls →
        ∃ w q w', t.first.exec (api (mapAt base)) calls.1 = some (w, q) ∧
          t.second.exec (api (mapAt (base + d))) calls.2 = some (w', movePtr d q) := by
  have hinv := Twins.reach_inv hsound hsound' hreach
  obtain ⟨⟨L, hmoved⟩, hlive⟩ := hinv.alike
  refine ⟨hmoved.stat, hmoved.used_eq, ?_, ?_, ?_⟩
  · rw [hlive]
    apply List.map_congr_left
    intro entry hentry
    have hne : entry.1 ≠ 0 := fun hzero => hinv.first.null_not_held ⟨entry.2, hzero ▸ hentry⟩
    rw [moveEntry, movePtr, if_neg hne]
  · refine ⟨_, hmoved.rep.headers, ?_⟩
    have hheaders := hmoved.rep'.headers
    rw [Layout.move_blocks, List.map_map] at hheaders
    rw [List.map_map]
    exact hheaders
  · rintro calls ⟨hcalls, hadmits, hadmits'⟩
    obtain ⟨hallows, hsafe⟩ := hadmits.safe
    obtain ⟨hallows', hsafe'⟩ := hadmits'.safe
    obtain ⟨w, q, hexec, _⟩ := (contract hsound).step hinv.first hallows hsafe
    obtain ⟨w', q', hexec', _⟩ := (contract hsound').step hinv.second hallows' hsafe'
    obtain ⟨rfl, _⟩ :=
      hinv.alike.exec hsound hsound' hinv.first hinv.second hcalls hadmits hadmits' hexec hexec'
    exact ⟨w, q, w', hexec, hexec'⟩

/-- A block is written to, freed and cut, and another one is resized. -/
theorem placement_relocates_example :
    ∃ t, Runs.run (Twins.step 4096 8192) Twins.initial
        [(.malloc 230, .malloc 230), (.malloc 20, .malloc 20), (.write 4112 7, .write 12305 9),
          (.free 4112, .free 12304), (.malloc 200, .malloc 200),
          (.realloc 4352 40, .realloc 12544 40)] = some t ∧
      t.first.live.map Prod.fst = [4384, 4112] ∧ t.first.heap.stat.scanSteps = 1 ∧
      t.second.heap.stat = t.first.heap.stat ∧
      t.second.live = t.first.live.map (fun entry => (entry.1 + 8192, entry.2)) := by
  have hfacts : (Runs.run (Twins.step 4096 8192) Twins.initial
      [(.malloc 230, .malloc 230), (.malloc 20, .malloc 20), (.write 4112 7, .write 12305 9),
        (.free 4112, .free 12304), (.malloc 200, .malloc 200),
        (.realloc 4352 40, .realloc 12544 40)]).map (fun t =>
          (t.first.live.map Prod.fst, t.first.heap.stat.scanSteps)) =
      some ([4384, 4112], 1) := by decide +kernel
  obtain ⟨t, hrun, ht⟩ := Option.map_eq_some_iff.mp hfacts
  obtain ⟨hpointers, hsteps⟩ := Prod.mk.inj ht
  have hsound : ∀ base, base % 4096 = 0 → 4096 ≤ base → base + arenaSize < 2 ^ 64 →
      (mapAt base).Sound := by
    intro base hpage hlow hhigh k base' hmap
    obtain rfl : base = base' := Option.some.inj hmap
    exact ⟨hpage, hlow, hhigh⟩
  obtain ⟨hstat, _, hlive, _⟩ := placement_relocates
    (hsound 4096 (by decide) (by decide) (by decide))
    (hsound (4096 + 8192) (by decide) (by decide) (by decide))
    (.of_run .start (by decide +kernel) hrun)
  exact ⟨t, hrun, hpointers, hsteps, hstat, hlive⟩

end Runs

end Segregated

end AllocSitter
