/-
The footprint of `segregated_allocator.c` when the requests keep to one chunk size per class:
every list holds blocks of one size, none is cut, and the arena grows only when more blocks of
a size are held than ever before.
-/
import AllocSitter.ExactChunks
import AllocSitter.SegregatedSteps
import Mathlib.Algebra.BigOperators.Group.Finset.Basic
import Mathlib.Algebra.GroupWithZero.Nat

namespace AllocSitter

open ByteMemory LinkedChain Tiling

namespace Segregated

/-- How many blocks have the size `k`. -/
def sizeCount (k : Nat) (blocks : List Block) : Nat := (blocks.map Block.size).count k

theorem sizeCount_perm (k : Nat) {blocks blocks' : List Block} (h : blocks.Perm blocks') :
    sizeCount k blocks = sizeCount k blocks' :=
  (h.map Block.size).count_eq k

theorem sizeCount_append (k : Nat) (blocks blocks' : List Block) :
    sizeCount k (blocks ++ blocks') = sizeCount k blocks + sizeCount k blocks' := by
  simp [sizeCount]

theorem sizeCount_used_le (k : Nat) (blocks : List Block) :
    sizeCount k (Layout.usedBlocks blocks) ≤ sizeCount k blocks := by
  rw [← sizeCount_perm k (Layout.blocks_split blocks), sizeCount_append]
  omega

/-- Where not all blocks of a size are used, one of them is free. -/
theorem exists_free_of_sizeCount_lt {k : Nat} {blocks : List Block}
    (h : sizeCount k (Layout.usedBlocks blocks) < sizeCount k blocks) :
    ∃ b ∈ blocks, b.used = false ∧ b.size = k := by
  rw [← sizeCount_perm k (Layout.blocks_split blocks), sizeCount_append] at h
  have hpos : 0 < ((blocks.filter fun b => !b.used).map Block.size).count k := by
    change 0 < sizeCount k _
    omega
  obtain ⟨b, hb, hsize⟩ := List.mem_map.mp (List.count_pos_iff.mp hpos)
  obtain ⟨hrow, hfree⟩ := List.mem_filter.mp hb
  exact ⟨b, hrow, by simpa using hfree, hsize⟩

section Row

variable {blocks pre post : List Block} {b u : Block} {c : Nat}

theorem sizeCount_pos_iff : 0 < sizeCount c blocks ↔ ∃ b ∈ blocks, b.size = c := by
  rw [sizeCount, List.count_pos_iff, List.mem_map]

/-- A block is added at the end of the row. -/
theorem sizeCount_concat : sizeCount c (blocks ++ [b]) =
    Function.update (sizeCount · blocks) b.size (sizeCount b.size blocks + 1) c := by
  rw [sizeCount_append]
  by_cases hc : c = b.size
  · subst hc
    rw [Function.update_self]
    simp [sizeCount]
  · rw [Function.update_of_ne hc]
    simp [sizeCount, Ne.symm hc]

/-- A block that only changes its flag. -/
theorem sizeCount_exchange (hsize : u.size = b.size) :
    sizeCount c (pre ++ [u] ++ post) = sizeCount c (pre ++ b :: post) := by
  simp only [sizeCount, List.map_append, List.map_cons, hsize, List.append_assoc,
    List.singleton_append]

/-- The bytes of a row, size by size. -/
theorem bytes_eq_sum {E : Finset Nat} (h : ∀ c, 0 < sizeCount c blocks → c ∈ E) :
    Layout.bytes blocks = ∑ c ∈ E, c * sizeCount c blocks := by
  have hsub : (blocks.map Block.size).toFinset ⊆ E := by
    intro c hc
    exact h c (List.count_pos_iff.mpr (List.mem_toFinset.mp hc))
  rw [Layout.bytes, Finset.sum_list_count_of_subset _ _ hsub]
  apply Finset.sum_congr rfl
  intro c _
  rw [Nat.nsmul_eq_mul, Nat.mul_comm]
  rfl

end Row

variable {mmap : Mmap} {E : Finset Nat} {s s' : State} {L L' : Layout Bin} {need p q : Nat}

theorem mem_listed {i : Bin} {front back : List Block} {c : Block}
    (hlist : L.lists i = front ++ c :: back) : c ∈ L.lists i := by
  rw [hlist]
  exact List.mem_append_right _ List.mem_cons_self

section Step

variable (hone : Set.InjOn sizeToBin E) (h : Represents sizeToBin s L)
  (hsizes : ∀ c, 0 < sizeCount c L.blocks → c ∈ E) (hneed : need ∈ E)

include hone h hsizes hneed

/-- The list that a request looks into has blocks of its size only. -/
theorem listed_size {b : Block} (hb : b ∈ L.lists (sizeToBin need)) : b.size = need := by
  obtain ⟨hrow, _, hbin⟩ := h.binned.mem_iff.mp hb
  exact hone (hsizes b.size (sizeCount_pos_iff.mpr ⟨b, hrow, rfl⟩)) hneed hbin

/-- A request is served from the list if there is a free block of its size, and only then. -/
theorem mallocCase_sizeCount (hcase : MallocCase sizeToBin liveAdd mmap s L need s' p L')
    (c : Nat) : sizeCount c L'.blocks = if p = 0 then sizeCount c L.blocks else
      Function.update (sizeCount · L.blocks) need
        (max (sizeCount need L.blocks) (sizeCount need (Layout.usedBlocks L.blocks) + 1)) c := by
  cases hcase with
  | split hge hmod hfit hblocks hlist =>
      -- A larger block of the class would be of another size.
      have hsize := listed_size hone h hsizes hneed (mem_listed hlist)
      omega
  | whole hsize hblocks hlist =>
      obtain ⟨hrow, hfree, _⟩ := h.binned.mem_iff.mp (mem_listed hlist)
      have hpos : 0 < sizeCount need (L.blocks.filter fun b => !b.used) :=
        sizeCount_pos_iff.mpr ⟨_, List.mem_filter.mpr ⟨hrow, by simp [hfree]⟩, hsize⟩
      have hsplit := sizeCount_perm need (Layout.blocks_split L.blocks)
      rw [sizeCount_append] at hsplit
      rw [if_neg (Nat.succ_ne_zero _), Nat.max_eq_left (by omega), Function.update_eq_self,
        hblocks]
      exact sizeCount_exchange rfl
  | extend hge hmod hmiss =>
      have hall : sizeCount need (Layout.usedBlocks L.blocks) = sizeCount need L.blocks := by
        refine Nat.le_antisymm (sizeCount_used_le need L.blocks) (Nat.le_of_not_lt fun hlt => ?_)
        obtain ⟨b, hrow, hfree, hsize⟩ := exists_free_of_sizeCount_lt hlt
        have hlisted : b ∈ L.lists (sizeToBin need) :=
          h.binned.mem_iff.mpr ⟨hrow, hfree, by rw [hsize]⟩
        exact absurd hsize (Nat.ne_of_lt (hmiss b hlisted))
      rw [if_neg (Nat.succ_ne_zero _), hall, Nat.max_eq_right (Nat.le_succ _)]
      exact sizeCount_concat
  | fail => rw [if_pos rfl]

end Step

theorem Frees.sizeCount_eq (hfrees : Frees s L s' L') (c : Nat) :
    sizeCount c L'.blocks = sizeCount c L.blocks := by
  cases hfrees with
  | skip => rfl
  | block hblocks _ =>
      rw [hblocks]
      exact sizeCount_exchange rfl

/-- How many of the blocks held have the size. -/
def held (live : List (Nat × Nat)) (c : Nat) : Nat :=
  (live.map fun entry => chunkNeed entry.2).count c

/-- Seen from the client: its blocks are the used ones, with the sizes of its requests. -/
theorem sizeCount_held {w : Client Bin} (h : Represents sizeToBin w.heap L)
    (howns : Owns w.live (Layout.usedBlocks L.blocks)) (hexact : Exact w) (c : Nat) :
    sizeCount c (Layout.usedBlocks L.blocks) = held w.live c := by
  have hsizes : (Layout.usedBlocks L.blocks).map Block.size =
      ((Layout.usedBlocks L.blocks).map Block.payload).map w.chunk := by
    rw [List.map_map]
    apply List.map_congr_left
    intro b hb
    exact (h.chunk_eq (Layout.mem_usedBlocks.mp hb).1).symm
  have hlive : (w.live.map Prod.fst).map w.chunk = w.live.map fun entry => chunkNeed entry.2 := by
    rw [List.map_map]
    exact List.map_congr_left hexact
  rw [sizeCount, hsizes, held, ← hlive]
  exact ((howns.pointers.map w.chunk).count_eq c).symm

/-- A client with the most blocks of each size that it ever held at once. -/
structure Gauge where
  client : Client Bin
  peak : Nat → Nat

namespace Gauge

def initial : Gauge := ⟨Client.initial Bin, fun _ => 0⟩

/-- A block that is returned is held beside all that were there before the call, also the one
that `my_realloc` copies from and then frees. -/
def step (mmap : Mmap) (o : Gauge) (call : Call) : Option Gauge :=
  (o.client.exec (api mmap) call).map fun result =>
    ⟨result.1, if result.2 = 0 then o.peak else
      Function.update o.peak (chunkNeed call.bytes)
        (max (o.peak (chunkNeed call.bytes)) (held o.client.live (chunkNeed call.bytes) + 1))⟩

/-- Admitted calls whose requests take chunks of the given sizes. -/
def Admits (mmap : Mmap) (E : Finset Nat) (o : Gauge) (call : Call) : Prop :=
  Segregated.Admits mmap o.client call ∧ ∀ n ∈ request call, chunkNeed n ∈ E

instance (mmap : Mmap) (E : Finset Nat) (o : Gauge) (call : Call) :
    Decidable (o.Admits mmap E call) :=
  inferInstanceAs (Decidable (_ ∧ _))

/-- What all runs keep: there are as many blocks of a size as were held at once. -/
structure Inv (E : Finset Nat) (o : Gauge) : Prop where
  client : AllocSitter.Inv sizeToBin o.client
  exact : Exact o.client
  counts : ∀ L, Represents sizeToBin o.client.heap L → ∀ c, sizeCount c L.blocks = o.peak c
  sizes : ∀ c, 0 < o.peak c → c ∈ E

end Gauge

section Runs

variable {call : Call} {o o' : Gauge}

theorem bytes_of_request {n : Nat} (h : request call = some n) : call.bytes = n := by
  cases call with
  | malloc size => exact Option.some.inj h
  | calloc nmemb size => exact (callocRequest_eq h).1.symm
  | realloc ptr size =>
      simp only [request] at h
      split at h
      · exact absurd h (by simp)
      · exact Option.some.inj h
  | free ptr => exact absurd h (by simp [request])
  | write addr byte => exact absurd h (by simp [request])
  | statReset => exact absurd h (by simp [request])

/-- One call in its parts: what it frees stays a block of its size. -/
theorem Parts.sizeCount_eq (hone : Set.InjOn sizeToBin E) (h : Represents sizeToBin s L)
    (hsizes : ∀ c, 0 < sizeCount c L.blocks → c ∈ E)
    (hneed : ∀ n ∈ request call, chunkNeed n ∈ E)
    (hparts : Parts mmap s L (request call) s' q L') (c : Nat) :
    sizeCount c L'.blocks = if q = 0 then sizeCount c L.blocks else
      Function.update (sizeCount · L.blocks) (chunkNeed call.bytes)
        (max (sizeCount (chunkNeed call.bytes) L.blocks)
          (sizeCount (chunkNeed call.bytes) (Layout.usedBlocks L.blocks) + 1)) c := by
  obtain ⟨⟨s₁, m, L₁, hrequests, hfrees⟩, _⟩ := hparts
  rw [hfrees.sizeCount_eq]
  generalize hrequest : request call = asked at hrequests
  cases hrequests with
  | skip => rw [if_pos rfl]
  | ask hcase =>
      rw [bytes_of_request hrequest]
      exact mallocCase_sizeCount hone h hsizes (hneed _ hrequest) hcase c

theorem Parts.requested {asked : Option Nat} (hparts : Parts mmap s L asked s' q L')
    (hq : q ≠ 0) : ∃ n, asked = some n := by
  obtain ⟨⟨s₁, m, L₁, hrequests, _⟩, _⟩ := hparts
  cases hrequests with
  | skip => exact absurd rfl hq
  | ask _ => exact ⟨_, rfl⟩

theorem Gauge.Inv.step (hsound : mmap.Sound) (hone : Set.InjOn sizeToBin E) (hinv : o.Inv E)
    (hadmits : o.Admits mmap E call) (hstep : o.step mmap call = some o') : o'.Inv E := by
  obtain ⟨hadmits, hneed⟩ := hadmits
  obtain ⟨⟨w', q⟩, hexec, rfl⟩ := Option.map_eq_some_iff.mp hstep
  obtain ⟨hallows, hsafe⟩ := hadmits.safe
  have hinv' := (contract hsound).keeps hinv.client hallows hsafe (Client.step_of_exec hexec)
  have hexact := (contract hsound).exact_step hinv.client hallows hsafe hexec
    (returned_chunk hsound hinv.client hadmits hexec) hinv.exact
  obtain ⟨L, h, howns⟩ := hinv.client
  have hcounts : (sizeCount · L.blocks) = o.peak := funext (hinv.counts L h)
  have hsizes : ∀ c, 0 < sizeCount c L.blocks → c ∈ E := by
    intro c hc
    exact hinv.sizes c (hinv.counts L h c ▸ hc)
  by_cases hreset : call = .statReset
  · -- The counters are no part of the row.
    subst hreset
    obtain ⟨rfl, rfl⟩ := Prod.mk.inj (Option.some.inj hexec)
    refine ⟨hinv', hexact, fun L' h' => ?_, hinv.sizes⟩
    rw [h'.blocks_unique ((contract hsound).statReset h).1]
    exact hinv.counts L h
  · obtain ⟨L₁, hparts⟩ := exec_parts hsound h howns hadmits hreset hexec
    refine ⟨hinv', hexact, fun L' h' c => ?_, fun c hc => ?_⟩
    · rw [h'.blocks_unique hparts.represents, hparts.sizeCount_eq hone h hsizes hneed,
        sizeCount_held h howns hinv.exact, hcounts, hinv.counts L h, hinv.counts L h]
      dsimp only
      split
      · rfl
      · rfl
    · dsimp only at hc
      split at hc
      · exact hinv.sizes c hc
      · next hq =>
          by_cases hsame : c = chunkNeed call.bytes
          · obtain ⟨n, hn⟩ := hparts.requested hq
            rw [hsame, bytes_of_request hn]
            exact hneed n hn
          · rw [Function.update_of_ne hsame] at hc
            exact hinv.sizes c hc

theorem Gauge.Inv.run (hsound : mmap.Sound) (hone : Set.InjOn sizeToBin E)
    (hreach : Runs.Reach (Gauge.step mmap) (Gauge.Admits mmap E) Gauge.initial o) : o.Inv E := by
  refine hreach.invariant ⟨inv_initial sizeToBin, ?_, ?_, ?_⟩
    fun before call after hinv hadmits hstep => hinv.step hsound hone hadmits hstep
  · intro entry hentry
    exact absurd hentry List.not_mem_nil
  · intro L h c
    rw [h.blocks_unique (represents_initial sizeToBin)]
    rfl
  · intro c hc
    exact absurd hc (Nat.lt_irrefl 0)

/-- No bytes are lost between the blocks: in every run whose requests take one chunk size per
class, there are as many blocks of a size in the heap as were ever held at once, and the arena
is as large as these blocks and the twelve bytes before them. -/
theorem footprint_of_peaks (hsound : mmap.Sound) (hone : Set.InjOn sizeToBin E)
    (hreach : Runs.Reach (Gauge.step mmap) (Gauge.Admits mmap E) Gauge.initial o) :
    (∃ headers, Headers o.client.heap headers ∧
      ∀ c, (headers.map (blockSize o.client.heap.mem)).count c = o.peak c) ∧
    arenaUsedBytes o.client.heap =
      (if ∃ c ∈ E, 0 < o.peak c then 12 else 0) + ∑ c ∈ E, c * o.peak c := by
  have hinv := Gauge.Inv.run hsound hone hreach
  obtain ⟨L, h, _⟩ := hinv.client
  have hcounts := hinv.counts L h
  have hbytes : Layout.bytes L.blocks = ∑ c ∈ E, c * o.peak c := by
    rw [bytes_eq_sum fun c hc => hinv.sizes c (hcounts c ▸ hc)]
    simp only [hcounts]
  refine ⟨⟨_, h.headers, fun c => ?_⟩, ?_⟩
  · have hsizes : (L.blocks.map Block.addr).map (blockSize o.client.heap.mem) =
        L.blocks.map Block.size := by
      rw [List.map_map]
      apply List.map_congr_left
      intro b hb
      exact (h.threaded.tagged b hb).tagSize_head
    rw [hsizes]
    exact hcounts c
  · rw [arenaUsedBytes_eq h, ← hbytes]
    by_cases hnil : L.blocks = []
    · have hcur := (h.arena.untouched hnil).2
      have hnone : ¬ ∃ c ∈ E, 0 < o.peak c := by
        rintro ⟨c, _, hc⟩
        rw [← hcounts, hnil] at hc
        exact absurd hc (Nat.lt_irrefl 0)
      rw [if_neg hnone, hnil, Layout.bytes, List.map_nil, List.sum_nil]
      omega
    · obtain ⟨b, hb⟩ := List.exists_mem_of_ne_nil L.blocks hnil
      have hpos : 0 < o.peak b.size := by
        rw [← hcounts]
        exact sizeCount_pos_iff.mpr ⟨b, hb, rfl⟩
      have hsome : ∃ c ∈ E, 0 < o.peak c := ⟨b.size, hinv.sizes b.size hpos, hpos⟩
      have hcur := h.cur_eq hnil
      have hlo := (h.arena.tiles hnil).1
      rw [if_pos hsome]
      omega

/-- A block is reused, and a resize holds two blocks of its size for a while. -/
theorem footprint_of_peaks_example :
    ∃ o, Runs.run (Gauge.step lowRegion) Gauge.initial
        [.malloc 20, .malloc 60, .malloc 24, .free 4112, .malloc 20, .realloc 4144 66] =
          some o ∧
      (∃ headers, Headers o.client.heap headers ∧
        (headers.map (blockSize o.client.heap.mem)).count 32 = 2) ∧
      arenaUsedBytes o.client.heap = 12 + (32 * 2 + 80 * 2) := by
  have hfacts : (Runs.run (Gauge.step lowRegion) Gauge.initial
      [.malloc 20, .malloc 60, .malloc 24, .free 4112, .malloc 20, .realloc 4144 66]).map
        (fun o => (o.peak 32, o.peak 80)) = some (2, 2) := by decide +kernel
  obtain ⟨o, hrun, ho⟩ := Option.map_eq_some_iff.mp hfacts
  obtain ⟨hpeak, hpeak'⟩ := Prod.mk.inj ho
  have hone : Set.InjOn sizeToBin ({32, 80} : Finset Nat) := by
    intro c hc c' hc' hbin
    simp only [Finset.coe_insert, Finset.coe_singleton, Set.mem_insert_iff,
      Set.mem_singleton_iff] at hc hc'
    rcases hc with rfl | rfl <;> rcases hc' with rfl | rfl <;> revert hbin <;> decide
  obtain ⟨⟨headers, hheaders, hcount⟩, hused⟩ := footprint_of_peaks lowRegion_sound hone
    (.of_run .start (by decide +kernel) hrun)
  refine ⟨o, hrun, ⟨headers, hheaders, (hcount 32).trans hpeak⟩, ?_⟩
  have hsome : ∃ c ∈ ({32, 80} : Finset Nat), 0 < o.peak c :=
    ⟨32, Finset.mem_insert_self 32 {80}, by rw [hpeak]; decide⟩
  rw [hused, if_pos hsome, Finset.sum_pair (by decide), hpeak, hpeak']

end Runs

end Segregated

end AllocSitter
