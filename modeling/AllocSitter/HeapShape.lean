/-
The heap as a reader of the memory sees it, without the abstract row: headers
met from `heap_lo` to `heap_hi`, lists met from their heads.  In every state of
an admitted run both are as `check_invariant` wants them, and more.
-/
import AllocSitter.ClientInvariant
import AllocSitter.FirstFitRealloc
import AllocSitter.SegregatedSpec
import Mathlib.Data.Fintype.BigOperators

namespace AllocSitter

open ByteMemory LinkedChain Tiling

variable {ι : Type}

/-- The size in the header at `header`. -/
def blockSize (m : Memory) (header : Nat) : Nat := tagSize (load m header 4)

/-- The headers met from `heap_lo` to `heap_hi`; none before `heap_lo` is set. -/
def Headers (s : Globals ι) (headers : List Nat) : Prop :=
  if s.heapLo = 0 then headers = []
  else Tiles id (blockSize s.mem) s.heapLo headers s.heapHi ∧
    ∀ h ∈ headers, 0 < blockSize s.mem h

/-- The heap of a client: `headers` are the headers from `heap_lo` to `heap_hi`
and `nodes` the lists from their heads. -/
structure HeapShape [Fintype ι] (binOf : Nat → ι) (w : Client ι) (headers : List Nat)
    (nodes : ι → List Nat) : Prop where
  /-- The row ends at the break. -/
  top : w.heap.heapHi = w.heap.arenaCur
  tiled : Tiles id (blockSize w.heap.mem) w.heap.heapLo headers w.heap.heapHi
  sizes : ∀ h ∈ headers, blockSize w.heap.mem h % 16 = 0 ∧ 16 ≤ blockSize w.heap.mem h ∧
    tagSize (load w.heap.mem (h + blockSize w.heap.mem h - 4) 4) = blockSize w.heap.mem h
  /-- The flag is set exactly on the live blocks. -/
  live : ∀ ptr, w.Holds ptr ↔
    ∃ h ∈ headers, ptr = h + 4 ∧ load w.heap.mem h 4 % 2 = 1
  linked : ∀ i, Linked (nextFree w.heap.mem) 0 (w.heap.freeHead i) (nodes i)
  nodup : ∀ i, (nodes i).Nodup
  apart : ∀ i j h, h ∈ nodes i → h ∈ nodes j → i = j
  /-- The lists hold exactly the blocks whose flag is clear. -/
  free : ∀ h, (∃ i, h ∈ nodes i) ↔ h ∈ headers ∧ load w.heap.mem h 4 % 2 = 0
  binned : ∀ i, ∀ h ∈ nodes i, binOf (blockSize w.heap.mem h) = i
  length : w.heap.stat.freelistLen = ∑ i, (nodes i).length
  /-- A scan ends, whatever it is looking for. -/
  scans : ∀ i stop, ∃ result, walk (nextFree w.heap.mem) 0 (w.heap.freeHead i) stop
    walkFuel .head 0 = some result

section Shape

variable [DecidableEq ι] {binOf : Nat → ι}

/-- A sum over the free blocks, taken list by list. -/
theorem Binned.sum_eq [Fintype ι] {lists : ι → List Block} {blocks : List Block}
    (h : Binned binOf lists blocks) (f : Block → Nat) :
    ((blocks.filter fun b => !b.used).map f).sum = ∑ i, ((lists i).map f).sum := by
  have hsum : ∀ rest : List Block, ((rest.filter fun b => !b.used).map f).sum =
      ∑ i, ((rest.filter fun b => !b.used && decide (binOf b.size = i)).map f).sum := by
    intro rest
    induction rest with
    | nil => simp
    | cons b rest ih =>
        have hsplit : ∀ i, (((b :: rest).filter fun b =>
            !b.used && decide (binOf b.size = i)).map f).sum =
            ((rest.filter fun b => !b.used && decide (binOf b.size = i)).map f).sum +
              if binOf b.size = i then (if b.used then 0 else f b) else 0 := by
          intro i
          cases hused : b.used <;> by_cases hbin : binOf b.size = i <;>
            simp [hused, hbin, Nat.add_comm]
        simp only [hsplit, Finset.sum_add_distrib, Finset.sum_ite_eq, Finset.mem_univ,
          ↓reduceIte, ← ih]
        cases hused : b.used <;> simp [hused, Nat.add_comm]
  rw [hsum]
  exact Finset.sum_congr rfl fun i _ => (((h i).map f).sum_eq).symm

/-- The free blocks, counted list by list. -/
theorem Binned.freeCount_eq [Fintype ι] {lists : ι → List Block} {blocks : List Block}
    (h : Binned binOf lists blocks) :
    Layout.freeCount blocks = ∑ i, (lists i).length := by
  have hsum := h.sum_eq fun _ => 1
  simp only [List.map_const', List.sum_replicate_nat, Nat.mul_one] at hsum
  rw [← hsum]
  exact List.countP_eq_length_filter

omit [DecidableEq ι] in
/-- A row whose blocks are tagged, read off the memory. -/
theorem ArenaShape.headers {s : Globals ι} {blocks : List Block} (harena : ArenaShape s blocks)
    (htagged : ∀ b ∈ blocks, b.Tagged s.mem) : Headers s (blocks.map Block.addr) := by
  unfold Headers
  by_cases hnil : blocks = []
  · rw [if_pos (harena.untouched hnil).1, hnil]
    rfl
  · obtain ⟨hlo, htiles⟩ := harena.tiles hnil
    have htop := (harena.top (harena.room.base_ne_zero hnil)).1
    have hsize : ∀ b ∈ blocks, blockSize s.mem b.addr = b.size :=
      fun b hb => (htagged b hb).tagSize_head
    rw [if_neg (by omega), htop]
    refine ⟨htiles.map Block.addr (fun _ _ => rfl) hsize, ?_⟩
    intro a ha
    obtain ⟨b, hb, rfl⟩ := List.mem_map.mp ha
    have hge := b.size_ge
    rw [hsize b hb]
    omega

theorem RepresentsIn.headers {s : Globals ι} {L : Layout ι} (h : Represents binOf s L) :
    Headers s (L.blocks.map Block.addr) :=
  h.arena.headers h.threaded.tagged

omit [DecidableEq ι] in
theorem Headers.unique {s : Globals ι} {headers headers' : List Nat}
    (h : Headers s headers) (h' : Headers s headers') : headers = headers' := by
  unfold Headers at h h'
  split at h
  · next hlo =>
      rw [if_pos hlo] at h'
      rw [h, h']
  · next hlo =>
      rw [if_neg hlo] at h'
      exact h.1.unique Function.injective_id h'.1 h.2 h'.2

omit [DecidableEq ι] in
/-- The walk reads nothing but the sizes in the headers that it meets. -/
theorem Headers.congr {s s' : Globals ι} {headers : List Nat} (h : Headers s headers)
    (hlo : s'.heapLo = s.heapLo) (hhi : s'.heapHi = s.heapHi)
    (hsizes : ∀ a ∈ headers, blockSize s'.mem a = blockSize s.mem a) : Headers s' headers := by
  unfold Headers at h ⊢
  rw [hlo, hhi]
  split at h
  · next hnone => rwa [if_pos hnone]
  · next hset =>
      rw [if_neg hset]
      have htiles := h.1.map id (fun _ _ => rfl) hsizes
      rw [List.map_id] at htiles
      exact ⟨htiles, fun a ha => (hsizes a ha).symm ▸ h.2 a ha⟩

variable {w : Client ι}

/-- With a live block the row has begun. -/
theorem Inv.heapLo_ne_zero (hinv : Inv binOf w) {p : Nat} (hp : w.Holds p) :
    w.heap.heapLo ≠ 0 := by
  obtain ⟨L, h, howns⟩ := hinv
  obtain ⟨n, hmem⟩ := hp
  obtain ⟨b, hb, _⟩ := howns.block_of_mem hmem
  have hlo := (h.arena.tiles (List.ne_nil_of_mem (Layout.mem_usedBlocks.mp hb).1)).1
  omega

/-- The invariant of the client, read off the memory. -/
theorem Inv.heapShape [Fintype ι] (hinv : Inv binOf w) (hset : w.heap.heapLo ≠ 0) :
    ∃ headers nodes, HeapShape binOf w headers nodes := by
  obtain ⟨L, h, howns⟩ := hinv
  have hne : L.blocks ≠ [] := fun hnil => hset (h.arena.untouched hnil).1
  obtain ⟨_, htiles⟩ := h.arena.tiles hne
  have htop := (h.arena.top (h.room.base_ne_zero hne)).1
  have hsize : ∀ b ∈ L.blocks, blockSize w.heap.mem b.addr = b.size :=
    fun b hb => (h.threaded.tagged b hb).tagSize_head
  have hflag : ∀ b ∈ L.blocks, load w.heap.mem b.addr 4 % 2 = b.used.toNat :=
    fun b hb => (h.threaded.tagged b hb).flag_head
  refine ⟨L.blocks.map Block.addr, L.chains, ?_⟩
  constructor
  · exact htop
  · rw [htop]
    exact htiles.map Block.addr (fun _ _ => rfl) hsize
  · intro a ha
    obtain ⟨b, hb, rfl⟩ := List.mem_map.mp ha
    rw [hsize b hb]
    exact ⟨b.size_mod, b.size_ge, (h.threaded.tagged b hb).tagSize_tail⟩
  · intro ptr
    constructor
    · rintro ⟨n, hmem⟩
      obtain ⟨b, hb, rfl, _⟩ := howns.block_of_mem hmem
      obtain ⟨hrow, hused⟩ := Layout.mem_usedBlocks.mp hb
      refine ⟨b.addr, List.mem_map_of_mem hrow, rfl, ?_⟩
      rw [hflag b hrow, hused]
      rfl
    · rintro ⟨a, ha, rfl, hset'⟩
      obtain ⟨b, hb, rfl⟩ := List.mem_map.mp ha
      have hused : b.used = true := by
        rw [hflag b hb] at hset'
        cases hb' : b.used with
        | true => rfl
        | false => simp [hb'] at hset'
      exact howns.mem_of_block (Layout.mem_usedBlocks.mpr ⟨hb, hused⟩)
  · exact h.threaded.linked
  · exact fun i => (h.threaded.linked i).nodup
  · exact h.threaded.apart
  · intro a
    constructor
    · rintro ⟨i, hi⟩
      obtain ⟨b, hb, rfl⟩ := List.mem_map.mp hi
      obtain ⟨hrow, hfree, _⟩ := h.binned.mem_iff.mp hb
      refine ⟨List.mem_map_of_mem hrow, ?_⟩
      rw [hflag b hrow, hfree]
      rfl
    · rintro ⟨ha, hclear⟩
      obtain ⟨b, hb, rfl⟩ := List.mem_map.mp ha
      have hfree : b.used = false := by
        rw [hflag b hb] at hclear
        cases hb' : b.used with
        | false => rfl
        | true => simp [hb'] at hclear
      exact ⟨binOf b.size, List.mem_map_of_mem (h.binned.mem_iff.mpr ⟨hb, hfree, rfl⟩)⟩
  · intro i a ha
    obtain ⟨b, hb, rfl⟩ := List.mem_map.mp ha
    obtain ⟨hrow, _, hbin⟩ := h.binned.mem_iff.mp hb
    rw [hsize b hrow]
    exact hbin
  · rw [h.length, h.binned.freeCount_eq]
    simp [Layout.chains]
  · intro i stop
    apply walk_returns (h.threaded.linked i)
    simpa [Layout.chains] using h.list_length_lt i

/-- Along every admitted run the heap has its shape, and every admitted call
returns. -/
theorem Contract.heapShape [Fintype ι] {api : Api ι} {ok : Globals ι → Call → Prop}
    (hcontract : Contract binOf api ok) {admits : Client ι → Call → Prop}
    (hadmits : ∀ w call, admits w call → w.Allows call ∧ ok w.heap call)
    (hreach : Runs.Reach (Client.step api) admits (Client.initial ι) w) :
    (w.heap.heapLo ≠ 0 → ∃ headers nodes, HeapShape binOf w headers nodes) ∧
      ∀ call, admits w call → ∃ w' p, w.exec api call = some (w', p) := by
  have hinv := hcontract.invariant hadmits hreach
  refine ⟨hinv.heapShape, ?_⟩
  intro call hadmit
  obtain ⟨hallows, hok⟩ := hadmits w call hadmit
  obtain ⟨w', p, hexec, _⟩ := hcontract.step hinv hallows hok
  exact ⟨w', p, hexec⟩

end Shape

section Environments

/-- `mmap` returns the first page boundary at once. -/
def lowRegion : Mmap := fun _ => some 4096

/-- `mmap` fails once and then returns the first page boundary. -/
def lateRegion : Mmap := fun k => if k = 0 then none else some 4096

/-- `mmap` returns a region in the upper half of the address space. -/
def highRegion : Mmap := fun _ => some (2 ^ 63)

theorem lowRegion_sound : lowRegion.Sound := by
  intro k base hmap
  obtain rfl : 4096 = base := Option.some.inj hmap
  decide

theorem lateRegion_sound : lateRegion.Sound := by
  intro k base hmap
  unfold lateRegion at hmap
  split at hmap
  · simp at hmap
  · obtain rfl : 4096 = base := Option.some.inj hmap
    decide

theorem lateRegion_inUserSpace : lateRegion.InUserSpace := by
  intro k base hmap
  unfold lateRegion at hmap
  split at hmap
  · simp at hmap
  · rw [← Option.some.inj hmap]
    decide

theorem highRegion_sound : highRegion.Sound := by
  intro k base hmap
  obtain rfl : 2 ^ 63 = base := Option.some.inj hmap
  decide

variable [Fintype ι] {binOf : Nat → ι} {api : Api ι}

/-- Headers that lead to a place without a block: there is no tiling. -/
theorem not_heapShape_of_gap {w : Client ι} {headers : List Nat} {nodes : ι → List Nat}
    (hlo : w.heap.heapLo < w.heap.heapHi)
    (hgap : w.heap.heapLo + blockSize w.heap.mem w.heap.heapLo < w.heap.heapHi)
    (hsmall : blockSize w.heap.mem
      (w.heap.heapLo + blockSize w.heap.mem w.heap.heapLo) < 16) :
    ¬ HeapShape binOf w headers nodes := by
  intro hshape
  have htiled := hshape.tiled
  have hsizes := hshape.sizes
  cases headers with
  | nil => exact absurd htiled (Nat.ne_of_lt hlo)
  | cons first rest =>
      obtain ⟨hfirst, hrest⟩ := htiled
      change first = w.heap.heapLo at hfirst
      subst hfirst
      cases rest with
      | nil => exact absurd hrest (Nat.ne_of_lt hgap)
      | cons second rest =>
          obtain ⟨hsecond, _⟩ := hrest
          change second = _ at hsecond
          have hsize := (hsizes second (by simp)).2.1
          rw [hsecond] at hsize
          omega

/-- Two requests after a first failure of `mmap` that nobody checked: the first
block lies one byte too far, and a gap follows it. -/
theorem heapShape_fails_late {reallocMax : Nat}
    (hok : Runs.RunOk (Client.step api) (Client.Disciplined (2 ^ 63) reallocMax)
      (Client.initial ι) [.malloc 0, .malloc 0])
    (hrun : (Runs.run (Client.step api) (Client.initial ι) [.malloc 0, .malloc 0]).map
      (fun w => (w.heap.heapLo, w.heap.heapHi, blockSize w.heap.mem 4109,
        blockSize w.heap.mem 4125)) = some (4109, 4156, 16, 0)) :
    ∃ w, Runs.run (Client.step api) (Client.initial ι) [.malloc 0, .malloc 0] = some w ∧
      Runs.Reach (Client.step api) (Client.Disciplined (2 ^ 63) reallocMax)
        (Client.initial ι) w ∧
      w.heap.heapLo ≠ 0 ∧ ¬ ∃ headers nodes, HeapShape binOf w headers nodes := by
  obtain ⟨w, hw, hfacts⟩ := Option.map_eq_some_iff.mp hrun
  simp only [Prod.mk.injEq] at hfacts
  obtain ⟨hlo, hhi, hfirst, hsecond⟩ := hfacts
  refine ⟨w, hw, Runs.Reach.of_run .start hok hw, by omega, ?_⟩
  rintro ⟨headers, nodes, hshape⟩
  apply not_heapShape_of_gap _ _ _ hshape
  · omega
  · rw [hlo, hfirst, hhi]
    decide
  · rw [hlo, hfirst, hsecond]
    decide

/-- A request whose sum with the break wraps: the top ends below the bottom. -/
theorem heapShape_fails_high {reallocMax : Nat}
    (hok : Runs.RunOk (Client.step api) (Client.Disciplined (2 ^ 63) reallocMax)
      (Client.initial ι) [.malloc 16, .malloc (2 ^ 63)])
    (hrun : (Runs.run (Client.step api) (Client.initial ι) [.malloc 16, .malloc (2 ^ 63)]).map
      (fun w => (w.heap.heapLo, w.heap.heapHi)) = some (2 ^ 63 + 12, 60)) :
    ∃ w, Runs.run (Client.step api) (Client.initial ι) [.malloc 16, .malloc (2 ^ 63)] =
        some w ∧
      Runs.Reach (Client.step api) (Client.Disciplined (2 ^ 63) reallocMax)
        (Client.initial ι) w ∧
      w.heap.heapLo ≠ 0 ∧ ¬ ∃ headers nodes, HeapShape binOf w headers nodes := by
  obtain ⟨w, hw, hfacts⟩ := Option.map_eq_some_iff.mp hrun
  simp only [Prod.mk.injEq] at hfacts
  obtain ⟨hlo, hhi⟩ := hfacts
  refine ⟨w, hw, Runs.Reach.of_run .start hok hw, by omega, ?_⟩
  rintro ⟨headers, nodes, hshape⟩
  have hle := hshape.tiled.le
  omega

end Environments

namespace FirstFit

theorem reach_inv {mmap : Mmap} (hsound : mmap.Sound) {w : Client Unit}
    (hreach : Runs.Reach (Client.step (api mmap)) (Admits mmap) (Client.initial Unit) w) :
    Inv theList w :=
  (contract hsound).invariant (fun _ _ hadmits => hadmits.safe) hreach

/-- In every state of an admitted run of `allocator.c` the heap is tiled by
tagged blocks, the live ones are those marked used, and the list holds the
others; and every admitted call returns. -/
theorem heap_invariant {mmap : Mmap} (hsound : mmap.Sound) {w : Client Unit}
    (hreach : Runs.Reach (Client.step (api mmap)) (Admits mmap) (Client.initial Unit) w) :
    (w.heap.heapLo ≠ 0 → ∃ headers nodes, HeapShape theList w headers nodes) ∧
      ∀ call, Admits mmap w call → ∃ w' p, w.exec (api mmap) call = some (w', p) :=
  (contract hsound).heapShape (fun _ _ hadmits => hadmits.safe) hreach

theorem heap_invariant_example : ∃ w : Client Unit,
    Runs.run (Client.step (api lowRegion)) (Client.initial Unit)
        [.malloc 40, .malloc 100, .free 4112, .calloc 2 8, .realloc 4160 300] = some w ∧
      w.heap.heapLo = 4108 ∧ ∃ headers nodes, HeapShape theList w headers nodes := by
  have hlo : (Runs.run (Client.step (api lowRegion)) (Client.initial Unit)
      [.malloc 40, .malloc 100, .free 4112, .calloc 2 8, .realloc 4160 300]).map
      (fun w => w.heap.heapLo) = some 4108 := by decide +kernel
  obtain ⟨w, hrun, hw⟩ := Option.map_eq_some_iff.mp hlo
  have hreach : Runs.Reach (Client.step (api lowRegion)) (Admits lowRegion)
      (Client.initial Unit) w := .of_run .start (by decide +kernel) hrun
  refine ⟨w, hrun, hw, (heap_invariant lowRegion_sound hreach).1 ?_⟩
  rw [hw]
  decide

/-- The shape is lost after the unchecked failure of `mmap`, and after a sum that
wraps. -/
theorem heap_invariant_fails :
    (lateRegion.Sound ∧ ∃ w, Runs.run (Client.step (api lateRegion)) (Client.initial Unit)
        [.malloc 0, .malloc 0] = some w ∧
      Runs.Reach (Client.step (api lateRegion)) (Client.Disciplined (2 ^ 63) (2 ^ 32 - 24))
        (Client.initial Unit) w ∧
      w.heap.heapLo ≠ 0 ∧ ¬ ∃ headers nodes, HeapShape theList w headers nodes) ∧
    highRegion.Sound ∧ ∃ w, Runs.run (Client.step (api highRegion)) (Client.initial Unit)
        [.malloc 16, .malloc (2 ^ 63)] = some w ∧
      Runs.Reach (Client.step (api highRegion)) (Client.Disciplined (2 ^ 63) (2 ^ 32 - 24))
        (Client.initial Unit) w ∧
      w.heap.heapLo ≠ 0 ∧ ¬ ∃ headers nodes, HeapShape theList w headers nodes :=
  ⟨⟨lateRegion_sound, heapShape_fails_late (by decide +kernel) (by decide +kernel)⟩,
    highRegion_sound, heapShape_fails_high (by decide +kernel)
      (by decide +kernel)⟩

end FirstFit

namespace Segregated

theorem reach_inv {mmap : Mmap} (hsound : mmap.Sound) {w : Client Bin}
    (hreach : Runs.Reach (Client.step (api mmap)) (Admits mmap) (Client.initial Bin) w) :
    Inv sizeToBin w :=
  (contract hsound).invariant (fun _ _ hadmits => hadmits.safe) hreach

/-- The same for `segregated_allocator.c`, where each of the eleven lists holds
the free blocks of its class. -/
theorem bin_invariant {mmap : Mmap} (hsound : mmap.Sound) {w : Client Bin}
    (hreach : Runs.Reach (Client.step (api mmap)) (Admits mmap) (Client.initial Bin) w) :
    (w.heap.heapLo ≠ 0 → ∃ headers nodes, HeapShape sizeToBin w headers nodes) ∧
      ∀ call, Admits mmap w call → ∃ w' p, w.exec (api mmap) call = some (w', p) :=
  (contract hsound).heapShape (fun _ _ hadmits => hadmits.safe) hreach

theorem bin_invariant_example : ∃ w : Client Bin,
    Runs.run (Client.step (api lowRegion)) (Client.initial Bin)
        [.malloc 40, .malloc 100, .free 4112, .calloc 2 8, .realloc 4160 300] = some w ∧
      w.heap.heapLo = 4108 ∧ ∃ headers nodes, HeapShape sizeToBin w headers nodes := by
  have hlo : (Runs.run (Client.step (api lowRegion)) (Client.initial Bin)
      [.malloc 40, .malloc 100, .free 4112, .calloc 2 8, .realloc 4160 300]).map
      (fun w => w.heap.heapLo) = some 4108 := by decide +kernel
  obtain ⟨w, hrun, hw⟩ := Option.map_eq_some_iff.mp hlo
  have hreach : Runs.Reach (Client.step (api lowRegion)) (Admits lowRegion)
      (Client.initial Bin) w := .of_run .start (by decide +kernel) hrun
  refine ⟨w, hrun, hw, (bin_invariant lowRegion_sound hreach).1 ?_⟩
  rw [hw]
  decide

/-- The shape is lost after the unchecked failure of `mmap`, and after a sum that
wraps. -/
theorem bin_invariant_fails :
    (lateRegion.Sound ∧ ∃ w, Runs.run (Client.step (api lateRegion)) (Client.initial Bin)
        [.malloc 0, .malloc 0] = some w ∧
      Runs.Reach (Client.step (api lateRegion)) (Client.Disciplined (2 ^ 63) (2 ^ 63))
        (Client.initial Bin) w ∧
      w.heap.heapLo ≠ 0 ∧ ¬ ∃ headers nodes, HeapShape sizeToBin w headers nodes) ∧
    highRegion.Sound ∧ ∃ w, Runs.run (Client.step (api highRegion)) (Client.initial Bin)
        [.malloc 16, .malloc (2 ^ 63)] = some w ∧
      Runs.Reach (Client.step (api highRegion)) (Client.Disciplined (2 ^ 63) (2 ^ 63))
        (Client.initial Bin) w ∧
      w.heap.heapLo ≠ 0 ∧ ¬ ∃ headers nodes, HeapShape sizeToBin w headers nodes :=
  ⟨⟨lateRegion_sound, heapShape_fails_late (by decide +kernel) (by decide +kernel)⟩,
    highRegion_sound, heapShape_fails_high (by decide +kernel)
      (by decide +kernel)⟩

end Segregated

end AllocSitter
