/-
Blocks of `segregated_allocator.c` that are freed and asked for again in the opposite
order.  Each request finds its own block in front of its bin, and the heap ends up as it
was.
-/
import AllocSitter.ExactFit

namespace AllocSitter

open ByteMemory LinkedChain Tiling

/-- Two heaps that are represented by the same row and lists have the same heads, tags and
links. -/
theorem RepresentsIn.heads_unique {ι : Type} [DecidableEq ι] {binOf : Nat → ι}
    {shape : Globals ι → List Block → Prop} {s s' : Globals ι} {L : Layout ι}
    (h : RepresentsIn shape binOf s L) (h' : RepresentsIn shape binOf s' L) :
    s'.freeHead = s.freeHead := by
  funext i
  have hlinked := h.threaded.linked i
  have hlinked' := h'.threaded.linked i
  generalize L.chains i = nodes at hlinked hlinked'
  cases nodes with
  | nil => exact (linked_nil.mp hlinked').trans (linked_nil.mp hlinked).symm
  | cons node rest =>
      rw [linked_cons] at hlinked hlinked'
      exact hlinked'.1.trans hlinked.1.symm

namespace Segregated

/-- `my_free` of one pointer after the other. -/
def myFrees (s : State) (ptrs : List Nat) : State := ptrs.foldl myFree s

/-- `my_malloc` of one size after the other, with the pointers that are returned. -/
def myMallocs (mmap : Mmap) : State → List Nat → Option (State × List Nat)
  | s, [] => some (s, [])
  | s, size :: sizes => do
      let (s, p) ← myMalloc mmap s size
      let (s, ptrs) ← myMallocs mmap s sizes
      some (s, p :: ptrs)

/-- The counters other than `scan_steps` and `real_bytes`. -/
structure SameCounters (stat stat' : AllocStat) : Prop where
  removeSteps : stat'.removeSteps = stat.removeSteps
  freelistLen : stat'.freelistLen = stat.freelistLen
  liveRealBytes : stat'.liveRealBytes = stat.liveRealBytes
  peakLiveRealBytes : stat'.peakLiveRealBytes = stat.peakLiveRealBytes
  arenaUsedBytes : stat'.arenaUsedBytes = stat.arenaUsedBytes

/-- The heap `s`, whose blocks are `headers`, has been restored in `s'`, except for
`scan_steps`, `real_bytes` and the bytes at which `loose` holds. -/
structure Restored (s s' : State) (headers : List Nat) (loose : Nat → Prop) : Prop where
  heads : s'.freeHead = s.freeHead
  arena : SameArena s s'
  counters : SameCounters s.stat s'.stat
  walk : Headers s headers → Headers s' headers
  /-- The words of all tags are the same. -/
  tags : ∀ h ∈ headers, SameOn s.mem s'.mem h 4 ∧
    SameOn s.mem s'.mem (h + blockSize s.mem h - 4) 4
  lists : ∀ i nodes, Linked (nextFree s.mem) 0 (s.freeHead i) nodes →
    Linked (nextFree s'.mem) 0 (s'.freeHead i) nodes
  bytes : ∀ x, ¬ loose x → s'.mem x = s.mem x

/-- Live pointers, each with a byte count that rounds to its chunk. -/
def Refits (w : Client Bin) (entries : List (Nat × Nat)) : Prop :=
  ∀ entry ∈ entries, w.Holds entry.1 ∧ tagSize (entry.2 + 8 + 15) = w.chunk entry.1

instance (w : Client Bin) (entries : List (Nat × Nat)) : Decidable (Refits w entries) :=
  inferInstanceAs (Decidable (∀ entry ∈ entries, _ ∧ _))

/-- The payload bytes of the blocks at these pointers. -/
def PayloadOf (w : Client Bin) (entries : List (Nat × Nat)) (x : Nat) : Prop :=
  ∃ entry ∈ entries, entry.1 ≤ x ∧ x + 8 < entry.1 + w.chunk entry.1

instance (w : Client Bin) (entries : List (Nat × Nat)) (x : Nat) :
    Decidable (PayloadOf w entries x) :=
  inferInstanceAs (Decidable (∃ entry ∈ entries, _ ∧ _))

variable {mmap : Mmap} {s s' : State} {L : Layout Bin} {c : Block} {pre post : List Block}

theorem myMallocs_append (s : State) (sizes sizes' : List Nat) :
    myMallocs mmap s (sizes ++ sizes') = (myMallocs mmap s sizes).bind fun first =>
      (myMallocs mmap first.1 sizes').map fun last => (last.1, first.2 ++ last.2) := by
  induction sizes generalizing s with
  | nil => simp [myMallocs]
  | cons size rest ih =>
      simp only [List.cons_append, myMallocs, Option.bind_eq_bind]
      cases myMalloc mmap s size with
      | none => rfl
      | some result =>
          obtain ⟨s₁, p⟩ := result
          simp only [Option.bind_some, ih]
          cases myMallocs mmap s₁ rest with
          | none => rfl
          | some result =>
              obtain ⟨s₂, ptrs⟩ := result
              simp only [Option.bind_some]
              cases myMallocs mmap s₂ sizes' <;> rfl

/-- `my_free` writes to the header and to the link of its block. -/
theorem myFree_sameOutside (h : Pooled sizeToBin s L) (hc : c ∈ L.blocks)
    (hused : c.used = true) : SameOutside s.mem (myFree s c.payload).mem c.addr 12 := by
  obtain ⟨hlow, hhigh, _, hcur, _⟩ := h.room.bounds hc
  have hge := c.size_ge
  have hflag := (h.threaded.tagged c hc).not_clear hused
  have hptr : c.payload ≠ 0 := by
    unfold Block.payload
    omega
  have hlink : ptrAdd c.addr 4 = c.addr + 4 := ptrAdd_of_lt (by omega)
  intro x hx
  simp only [myFree, hptr, ↓reduceIte, h.header_eq hc, hflag, freelistPush, addFreelistLen, hlink]
  rw [store_sameOutside _ _ _ _ x (by omega), store_sameOutside _ _ _ _ x (by omega)]

/-- Counting a block out and in again leaves the account and its peak. -/
theorem liveAdd_back {n live : Nat} {stat : AllocStat} (hle : n ≤ live) (hlt : live < 2 ^ 64)
    (hstat : stat.liveRealBytes = ptrSub live n) (hpeak : live ≤ stat.peakLiveRealBytes) :
    liveAdd n stat = { stat with liveRealBytes := live } := by
  have hlive : ptrAdd stat.liveRealBytes n = live := by
    rw [hstat, ptrSub_of_le hle hlt, ptrAdd_of_lt (by omega)]
    omega
  simp only [liveAdd, hlive]
  rw [if_neg (by omega)]

/-- The block as it is after it has been freed and taken again. -/
theorem release_taken (hused : c.used = true) :
    c.release.taken c.release.size c.release.size_ge c.release.size_mod = c := by
  have hfoot := c.foot_of_used hused
  obtain ⟨addr, size, used, foot, hge, hmod, himp⟩ := c
  dsimp only at hused hfoot
  subst hused hfoot
  rfl

/-- What one block costs: the heap `s₁` after `my_free` has been restored in `s₂`, and the
request for the block is made there. -/
theorem myMalloc_back (h : Pooled sizeToBin s L) (hacc : Accounts s L)
    (hblocks : L.blocks = pre ++ c :: post) (hused : c.used = true) (mmap : Mmap)
    {s₂ : State} {size : Nat} (hneed : chunkNeed size = c.size)
    (h₂ : Pooled sizeToBin s₂
      ⟨pre ++ [c.release] ++ post, pushBlock sizeToBin L.lists c.release⟩)
    (hsame : SameArena (myFree s c.payload) s₂)
    (hcounters : SameCounters (myFree s c.payload).stat s₂.stat) :
    ∃ s₃, myMalloc mmap s₂ size = some (s₃, c.payload) ∧ Pooled sizeToBin s₃ L ∧
      SameArena s s₃ ∧ SameCounters s.stat s₃.stat ∧
      SameOutside s₂.mem s₃.mem c.addr c.size := by
  have hc : c ∈ L.blocks := by simp [hblocks]
  obtain ⟨_, hhigh, hlt, hcur, _⟩ := h.room.bounds hc
  obtain ⟨hle, _⟩ := myFree_accounts h hacc (Layout.mem_usedBlocks.mpr ⟨hc, hused⟩)
  obtain ⟨_, _, hstat₁, hsame₁⟩ := myFree_spec h hblocks hused
  have hrow : (Layout.mk (pre ++ [c.release] ++ post)
      (pushBlock sizeToBin L.lists c.release)).blocks = pre ++ c.release :: post := by simp
  have hlist : (Layout.mk (pre ++ [c.release] ++ post)
      (pushBlock sizeToBin L.lists c.release)).lists (sizeToBin c.release.size) =
      c.release :: L.lists (sizeToBin c.release.size) := Function.update_self _ _ _
  obtain ⟨s₃, heq, h₃, hmem, hsame₃, hstat₃⟩ :=
    mallocWith_head liveAdd_freelistLen h₂ mmap
      (show chunkNeed size = c.release.size from hneed) hrow hlist
  have hlayout : Layout.mk (pre ++ [c.release.taken c.release.size c.release.size_ge
        c.release.size_mod] ++ post)
      (Function.update (pushBlock sizeToBin L.lists c.release) (sizeToBin c.release.size)
        (L.lists (sizeToBin c.release.size))) = L := by
    rw [release_taken hused, pushBlock, Function.update_idem, Function.update_eq_self,
      List.append_assoc, List.singleton_append, ← hblocks]
  change Pooled sizeToBin s₃ (Layout.mk _ (Function.update
    (pushBlock sizeToBin L.lists c.release) _ _)) at h₃
  rw [hlayout] at h₃
  refine ⟨s₃, heq, h₃, hsame₁.trans (hsame.trans hsame₃), ?_, ?_⟩
  · have hlive : (addRealBytes (addScanSteps s₂ 1).stat c.size).liveRealBytes =
        ptrSub s.stat.liveRealBytes c.size := by
      refine hcounters.liveRealBytes.trans ?_
      rw [hstat₁]
    have hpeak : (addRealBytes (addScanSteps s₂ 1).stat c.size).peakLiveRealBytes =
        s.stat.peakLiveRealBytes := by
      refine hcounters.peakLiveRealBytes.trans ?_
      rw [hstat₁]
    have hlt' := h.used_bytes_lt
    rw [← hacc.live] at hlt'
    have hback : liveAdd c.release.size
        (addRealBytes (addScanSteps s₂ 1).stat c.release.size) = _ :=
      liveAdd_back hle hlt' hlive (hpeak ▸ hacc.peak)
    rw [hback] at hstat₃
    refine ⟨?_, h₃.length.trans h.length.symm, by rw [hstat₃], ?_, ?_⟩
    · rw [hstat₃]
      refine hcounters.removeSteps.trans ?_
      rw [hstat₁]
    · rw [hstat₃]
      exact hpeak
    · rw [hstat₃]
      refine hcounters.arenaUsedBytes.trans ?_
      rw [hstat₁]
  · have hhead : c.head = c.size + 1 := by
      rw [Block.head, hused]
      rfl
    rw [hmem]
    change SameOutside s₂.mem (setTags s₂.mem c.addr (c.size + 1)) c.addr c.size
    rw [← hhead]
    exact setTags_sameOutside s₂.mem (by omega) hlt

/-- The payload of one of the blocks. -/
def InPayload (blocks : List Block) (x : Nat) : Prop :=
  ∃ c ∈ blocks, c.payload ≤ x ∧ x + 8 < c.payload + c.size

/-- The blocks are freed in their order and asked for in the opposite one. -/
theorem cycle (mmap : Mmap) {cells : List (Block × Nat)} (h : Pooled sizeToBin s L)
    (hacc : Accounts s L) (hnodup : (cells.map Prod.fst).Nodup)
    (hcells : ∀ cell ∈ cells, cell.1 ∈ Layout.usedBlocks L.blocks ∧
      chunkNeed cell.2 = cell.1.size) :
    ∃ s', myMallocs mmap (myFrees s (cells.map fun cell => cell.1.payload))
        (cells.map Prod.snd).reverse =
          some (s', (cells.map fun cell => cell.1.payload).reverse) ∧
      Pooled sizeToBin s' L ∧ SameArena s s' ∧ SameCounters s.stat s'.stat ∧
      ∀ x, ¬ InPayload (cells.map Prod.fst) x → s'.mem x = s.mem x := by
  -- The first block to go is the last to come back, so the others are done in between.
  induction cells generalizing s L with
  | nil => exact ⟨s, rfl, h, SameArena.refl s, ⟨rfl, rfl, rfl, rfl, rfl⟩, fun _ _ => rfl⟩
  | cons cell rest ih =>
      obtain ⟨c, size⟩ := cell
      have hc : c ∈ Layout.usedBlocks L.blocks := (hcells (c, size) List.mem_cons_self).1
      have hneed : chunkNeed size = c.size := (hcells (c, size) List.mem_cons_self).2
      obtain ⟨hrow, hused⟩ := Layout.mem_usedBlocks.mp hc
      obtain ⟨pre, post, hblocks⟩ := List.append_of_mem hrow
      obtain ⟨hnot, hnodup'⟩ := List.nodup_cons.mp hnodup
      obtain ⟨h₁, _, _, _⟩ := myFree_spec h hblocks hused
      obtain ⟨_, L₁, _, hperm, hacc₁, _⟩ := myFree_accounts h hacc hc
      have hacc' : Accounts (myFree s c.payload)
          ⟨pre ++ [c.release] ++ post, pushBlock sizeToBin L.lists c.release⟩ := by
        refine ⟨hacc₁.live.trans ?_, hacc₁.peak⟩
        rw [hblocks] at hperm
        exact Layout.bytes_perm (hperm.symm.trans (usedBlocks_freed hused)).cons_inv
      have hothers : ∀ cell ∈ rest, cell.1 ∈ Layout.usedBlocks (pre ++ [c.release] ++ post) ∧
          chunkNeed cell.2 = cell.1.size := by
        intro cell hcell
        obtain ⟨hmem, hsize⟩ := hcells cell (List.mem_cons_of_mem _ hcell)
        have hlater : cell.1 ∈ rest.map Prod.fst := List.mem_map_of_mem hcell
        have hne : cell.1 ≠ c := by
          rintro rfl
          exact hnot hlater
        rw [hblocks] at hmem
        exact ⟨(List.mem_cons.mp ((usedBlocks_freed hused).mem_iff.mp hmem)).resolve_left hne,
          hsize⟩
      obtain ⟨s₂, hrun, h₂, hsame, hcounters, hbytes⟩ := ih h₁ hacc' hnodup' hothers
      obtain ⟨s₃, hmalloc, h₃, hsame₃, hcounters₃, hout⟩ :=
        myMalloc_back h hacc hblocks hused mmap hneed h₂ hsame hcounters
      refine ⟨s₃, ?_, h₃, hsame₃, hcounters₃, fun x hx => ?_⟩
      · have hrun' : myMallocs mmap (myFrees s (c.payload :: rest.map fun cell => cell.1.payload))
            (rest.map Prod.snd).reverse =
            some (s₂, (rest.map fun cell => cell.1.payload).reverse) := hrun
        simp only [List.map_cons, List.reverse_cons]
        rw [myMallocs_append, hrun', Option.bind_some]
        simp only [myMallocs, hmalloc, Option.bind_eq_bind, Option.bind_some, Option.map_some]
      · have hrest : ¬ InPayload (rest.map Prod.fst) x := by
          rintro ⟨b, hb, hinside⟩
          exact hx ⟨b, List.mem_cons_of_mem _ hb, hinside⟩
        have hown : ¬ (c.payload ≤ x ∧ x + 8 < c.payload + c.size) := by
          intro hinside
          exact hx ⟨c, List.mem_cons_self, hinside⟩
        have hge := c.size_ge
        by_cases hin : c.addr ≤ x ∧ x < c.addr + c.size
        · -- A byte of the block that is not in its payload is in one of its tags.
          have htags := h.threaded.tagged c hrow
          have htags₃ := h₃.threaded.tagged c hrow
          unfold Block.payload at hown
          by_cases hhead : x < c.addr + 4
          · exact sameOn_of_load_eq (htags₃.1.trans htags.1.symm) x hin.1 hhead
          · exact sameOn_of_load_eq (htags₃.2.trans htags.2.symm) x (by omega) (by omega)
        · rw [hout x (by omega), hbytes x hrest]
          exact myFree_sameOutside h hrow hused x (by omega)

/-- Heaps that are represented by one layout differ in payload bytes only. -/
theorem restored_of_represents (h : Pooled sizeToBin s L) (h' : Pooled sizeToBin s' L)
    (hsame : SameArena s s') (hcounters : SameCounters s.stat s'.stat) {loose : Nat → Prop}
    (hbytes : ∀ x, ¬ loose x → s'.mem x = s.mem x) :
    Restored s s' (L.blocks.map Block.addr) loose := by
  have hsizes : ∀ a ∈ L.blocks.map Block.addr, blockSize s'.mem a = blockSize s.mem a := by
    intro a ha
    obtain ⟨b, hb, rfl⟩ := List.mem_map.mp ha
    rw [h.blockSize_eq hb, h'.blockSize_eq hb]
  refine ⟨h.heads_unique h', hsame, hcounters, fun hwalk => ?_, ?_, ?_, hbytes⟩
  · exact hwalk.congr hsame.heapLo hsame.heapHi hsizes
  · intro a ha
    obtain ⟨b, hb, rfl⟩ := List.mem_map.mp ha
    have htags := h.threaded.tagged b hb
    have htags' := h'.threaded.tagged b hb
    rw [h.blockSize_eq hb]
    exact ⟨sameOn_of_load_eq (htags'.1.trans htags.1.symm),
      sameOn_of_load_eq (htags'.2.trans htags.2.symm)⟩
  · intro i nodes hnodes
    rw [hnodes.unique (h.threaded.linked i)]
    exact h'.threaded.linked i

/-- Each live pointer is the payload of a used block, and a size that rounds to its chunk is
rounded so by `my_malloc`. -/
theorem cells_of_live {w : Client Bin} (h : Pooled sizeToBin w.heap L)
    (howns : Owns w.live (Layout.usedBlocks L.blocks)) {entries : List (Nat × Nat)}
    (hlive : Refits w entries) :
    ∃ cells : List (Block × Nat),
      cells.map (fun cell => (cell.1.payload, cell.2)) = entries ∧
      ∀ cell ∈ cells, cell.1 ∈ Layout.usedBlocks L.blocks ∧
        w.chunk cell.1.payload = cell.1.size ∧ chunkNeed cell.2 = cell.1.size := by
  induction entries with
  | nil => exact ⟨[], rfl, by simp⟩
  | cons entry rest ih =>
      obtain ⟨cells, hcells, hall⟩ := ih fun entry hentry =>
        hlive entry (List.mem_cons_of_mem _ hentry)
      obtain ⟨⟨n, hmem⟩, hround⟩ := hlive entry List.mem_cons_self
      obtain ⟨ptr, size⟩ := entry
      obtain ⟨b, hb, rfl, _⟩ := howns.block_of_mem hmem
      have hrow := (Layout.mem_usedBlocks.mp hb).1
      have hchunk : w.chunk b.payload = b.size := h.chunk_eq hrow
      obtain ⟨_, _, hlt, _⟩ := h.room.bounds hrow
      dsimp only at hround
      rw [hchunk] at hround
      have hneed : chunkNeed size = b.size := by
        unfold chunkNeed
        rw [← hround, Nat.mod_eq_of_lt (by unfold tagSize at hround; omega)]
      refine ⟨(b, size) :: cells, by rw [List.map_cons, hcells], fun cell hcell => ?_⟩
      rcases List.mem_cons.mp hcell with rfl | hcell
      · exact ⟨hb, hchunk, hneed⟩
      · exact hall cell hcell

/-- In every state that a run without a wrapped sum leads to: live blocks that are freed one
after the other and asked for again in the opposite order, each with a size that rounds to its
chunk, come back in that order, and all but the payloads is as it was. -/
theorem lifo_reuse (hsound : mmap.Sound) {w : Client Bin}
    (hreach : Runs.Reach (Client.step (api mmap)) (AdmitsLate mmap) (Client.initial Bin) w)
    (entries : List (Nat × Nat)) (hdistinct : (entries.map Prod.fst).Nodup)
    (hlive : Refits w entries) :
    ∃ headers, BlocksOf mmap w headers ∧ ∃ s', myMallocs mmap
        (myFrees w.heap (entries.map Prod.fst)) (entries.map Prod.snd).reverse =
        some (s', (entries.map Prod.fst).reverse) ∧
      Restored w.heap s' headers (PayloadOf w entries) := by
  obtain ⟨L, h, howns, hacc, hblocks⟩ := reach_blocks hsound hreach
  obtain ⟨cells, rfl, hcells⟩ := cells_of_live h howns hlive
  rw [List.map_map] at hdistinct
  have hnodup : (cells.map Prod.fst).Nodup := by
    apply List.Nodup.of_map Block.payload
    rw [List.map_map]
    exact hdistinct
  obtain ⟨s', hrun, h', hsame, hcounters, hbytes⟩ := cycle mmap h hacc hnodup
    fun cell hcell => ⟨(hcells cell hcell).1, (hcells cell hcell).2.2⟩
  refine ⟨_, hblocks, s', ?_, restored_of_represents h h' hsame hcounters fun x hx => hbytes x ?_⟩
  · rw [List.map_map, List.map_map]
    exact hrun
  · rintro ⟨b, hb, hinside⟩
    obtain ⟨cell, hcell, rfl⟩ := List.mem_map.mp hb
    rw [← (hcells cell hcell).2.1] at hinside
    exact hx ⟨_, List.mem_map_of_mem hcell, hinside⟩

/-- The region has come late, so there is a gap between the two blocks.  They go to different
bins, one of which holds another block already. -/
theorem lifo_reuse_example :
    ∃ w s', ∃ headers, Runs.run (Client.step (api lateRegion)) (Client.initial Bin)
        [.malloc 8, .malloc 20, .malloc 8, .free 4176] = some w ∧ BlocksOf lateRegion w headers ∧
      myMallocs lateRegion (myFrees w.heap [4113, 4144]) [24, 0] = some (s', [4144, 4113]) ∧
      Restored w.heap s' headers (PayloadOf w [(4113, 0), (4144, 24)]) := by
  have hfacts : (Runs.run (Client.step (api lateRegion)) (Client.initial Bin)
      [.malloc 8, .malloc 20, .malloc 8, .free 4176]).map (fun w =>
        decide (Refits w [(4113, 0), (4144, 24)])) = some true := by
    decide +kernel
  obtain ⟨w, hrun, hlive⟩ := Option.map_eq_some_iff.mp hfacts
  obtain ⟨headers, hblocks, s', hmallocs, hrestored⟩ := lifo_reuse lateRegion_sound
    (.of_run .start (by decide +kernel) hrun) [(4113, 0), (4144, 24)] (by decide)
    (of_decide_eq_true hlive)
  exact ⟨w, s', headers, hrun, hblocks, hmallocs, hrestored⟩

/-- The sum with the break has wrapped around for a block of `2 ^ 63` bytes.  Its tag says 1, and
goes over the footer of the block in front of it, which is written anew when that one comes
back. -/
theorem lifo_reuse_fails : highRegion.Sound ∧
    ∃ w, Runs.run (Client.step (api highRegion)) (Client.initial Bin)
        [.malloc 16, .malloc (2 ^ 63 - 8)] = some w ∧
      Runs.Reach (Client.step (api highRegion)) (Client.Disciplined (2 ^ 63) (2 ^ 63))
        (Client.initial Bin) w ∧
      Refits w [(2 ^ 63 + 16, 16)] ∧
      ∀ s' ptrs headers,
        myMallocs highRegion (myFrees w.heap [2 ^ 63 + 16]) [16] = some (s', ptrs) →
        ¬ Restored w.heap s' headers (PayloadOf w [(2 ^ 63 + 16, 16)]) := by
  have hfacts : (Runs.run (Client.step (api highRegion)) (Client.initial Bin)
      [.malloc 16, .malloc (2 ^ 63 - 8)]).map (fun w =>
        (decide (Refits w [(2 ^ 63 + 16, 16)]),
          decide (PayloadOf w [(2 ^ 63 + 16, 16)] (2 ^ 63 + 40)),
          w.heap.mem (2 ^ 63 + 40),
          (myMallocs highRegion (myFrees w.heap [2 ^ 63 + 16]) [16]).map fun result =>
            result.1.mem (2 ^ 63 + 40))) =
      some (true, false, 1, some 33) := by decide +kernel
  obtain ⟨w, hrun, hw⟩ := Option.map_eq_some_iff.mp hfacts
  simp only [Prod.mk.injEq] at hw
  obtain ⟨hlive, hloose, hbefore, hafter⟩ := hw
  refine ⟨highRegion_sound, w, hrun, .of_run .start (by decide +kernel) hrun,
    of_decide_eq_true hlive, fun s' ptrs headers hmallocs hrestored => ?_⟩
  have hsame := hrestored.bytes _ (of_decide_eq_false hloose)
  rw [hmallocs] at hafter
  have hbyte : s'.mem (2 ^ 63 + 40) = 33 := Option.some.inj hafter
  rw [hbefore, hbyte] at hsame
  exact absurd hsame (by decide)

end Segregated

end AllocSitter
