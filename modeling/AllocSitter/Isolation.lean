/-
Client isolation: what each live block is worth to its owner, in terms of the
memory and the globals alone.
-/
import AllocSitter.HeapShape

namespace AllocSitter

open ByteMemory LinkedChain Tiling

variable {ι : Type}

/-- The byte at `x` belongs to the header or the footer of the block at `header`. -/
def TagByte (m : Memory) (header x : Nat) : Prop :=
  (header ≤ x ∧ x < header + 4) ∨
    (header + blockSize m header - 4 ≤ x ∧ x < header + blockSize m header)

/-- The byte at `x` belongs to the link kept in the free block at `node`. -/
def LinkByte (node x : Nat) : Prop := node + 4 ≤ x ∧ x < node + 12

/-- Every live pointer is aligned and has its payload for itself. -/
structure Isolated (w : Client ι) : Prop where
  distinct : (w.live.map Prod.fst).Nodup
  aligned : ∀ p, w.Holds p → p % 16 = 0
  inside : ∀ p, w.Holds p →
    w.heap.arenaBase ≤ p ∧ p + (w.chunk p - 8) ≤ w.heap.arenaEnd
  capacity : ∀ p n, (p, n) ∈ w.live → n ≤ w.chunk p - 8
  disjoint : ∀ p q, w.Holds p → w.Holds q → p ≠ q →
    p + (w.chunk p - 8) ≤ q ∨ q + (w.chunk q - 8) ≤ p
  /-- No payload byte is a byte of a tag or of a link. -/
  metadata : ∃ (headers : List Nat) (nodes : ι → List Nat), Headers w.heap headers ∧
    (∀ i, Linked (nextFree w.heap.mem) 0 (w.heap.freeHead i) (nodes i)) ∧
    ∀ p x, w.Holds p → p ≤ x → x < p + (w.chunk p - 8) →
      (∀ h ∈ headers, ¬ TagByte w.heap.mem h x) ∧
        ∀ i, ∀ node ∈ nodes i, ¬ LinkByte node x

section Isolation

variable [DecidableEq ι] {binOf : Nat → ι} {w : Client ι}

/-- The payload of a used block meets no tag and no link. -/
theorem RepresentsIn.payload_clear {s : Globals ι} {L : Layout ι}
    (h : Represents binOf s L) {b : Block} (hb : b ∈ Layout.usedBlocks L.blocks) {x : Nat}
    (hlo : b.payload ≤ x) (hhi : x < b.payload + (b.size - 8)) :
    (∀ a ∈ L.blocks.map Block.addr, ¬ TagByte s.mem a x) ∧
      ∀ i, ∀ a ∈ L.chains i, ¬ LinkByte a x := by
  obtain ⟨hrow, hused⟩ := Layout.mem_usedBlocks.mp hb
  have hge := b.size_ge
  unfold Block.payload at hlo hhi
  constructor
  · intro a ha htag
    obtain ⟨c, hc, rfl⟩ := List.mem_map.mp ha
    have hsize : blockSize s.mem c.addr = c.size := (h.threaded.tagged c hc).tagSize_head
    have hge' := c.size_ge
    unfold TagByte at htag
    rw [hsize] at htag
    by_cases hcb : c = b
    · subst hcb
      omega
    · have hapart := h.apart_of_ne hc hrow hcb
      omega
  · intro i a ha hlink
    obtain ⟨c, hc, rfl⟩ := List.mem_map.mp ha
    obtain ⟨hcrow, hfree, _⟩ := h.binned.mem_iff.mp hc
    have hge' := c.size_ge
    have hapart := h.apart_of_ne hcrow hrow (ne_of_used hused hfree).symm
    unfold LinkByte at hlink
    omega

/-- The invariant isolates the live blocks. -/
theorem Inv.isolated (hinv : Inv binOf w) : Isolated w := by
  obtain ⟨L, h, howns⟩ := id hinv
  constructor
  · exact howns.pointers.nodup_iff.mpr h.payload_nodup
  · exact fun p hp => (hinv.held_facts hp).1
  · intro p hp
    obtain ⟨b, _, rfl, hrow, hchunk⟩ := howns.held h hp
    obtain ⟨hlow, hhigh, _⟩ := h.room.bounds hrow
    have htop := (h.arena.top (h.room.base_ne_zero (List.ne_nil_of_mem hrow))).2
    have hge := b.size_ge
    rw [hchunk]
    unfold Block.payload
    omega
  · intro p n hmem
    have hroom := hinv.held_room hmem
    omega
  · intro p q hp hq hne
    have hapart := hinv.held_apart hp hq hne
    omega
  · refine ⟨L.blocks.map Block.addr, L.chains, h.headers, h.threaded.linked, ?_⟩
    intro p x hp hlo hhi
    obtain ⟨b, hb, rfl, _, hchunk⟩ := howns.held h hp
    rw [hchunk] at hhi
    exact h.payload_clear hb hlo hhi

/-- Along every admitted run the live blocks are isolated, and every admitted call
returns and is considerate. -/
theorem Contract.isolation {api : Api ι} {ok : Globals ι → Call → Prop}
    (hcontract : Contract binOf api ok) {admits : Client ι → Call → Prop}
    (hadmits : ∀ w call, admits w call → w.Allows call ∧ ok w.heap call)
    (hreach : Runs.Reach (Client.step api) admits (Client.initial ι) w) :
    Isolated w ∧ ∀ call, admits w call → ∃ w' p, w.exec api call = some (w', p) ∧
      Isolated w' ∧ Considerate w call w' p := by
  have hinv := hcontract.invariant hadmits hreach
  refine ⟨hinv.isolated, ?_⟩
  intro call hadmit
  obtain ⟨hallows, hok⟩ := hadmits w call hadmit
  obtain ⟨w', p, hexec, hinv', hconsiderate⟩ := hcontract.step hinv hallows hok
  exact ⟨w', p, hexec, hinv'.isolated, hconsiderate⟩

/-- `my_realloc(ptr, size)` with the result `q` has kept the data: a new pointer
holds what the old one held, and the blocks of the other pointers are untouched. -/
structure KeepsData {ι : Type} (w : Client ι) (ptr size : Nat) (w' : Client ι) (q : Nat) :
    Prop where
  refused : q = 0 → w'.live = w.live
  returned : q ≠ 0 → w'.Holds q ∧ q % 16 = 0 ∧ size ≤ w'.chunk q - 8
  data : q ≠ 0 → ∀ i < min (w.chunk ptr - 8) size, w'.heap.mem (q + i) = w.heap.mem (ptr + i)
  released : q ≠ 0 → q ≠ ptr → ¬ w'.Holds ptr
  others : ∀ p, w.Holds p → p ≠ ptr → w'.Holds p ∧
    ∀ x, p ≤ x → x < p + (w.chunk p - 8) → w'.heap.mem x = w.heap.mem x

/-- An admitted resize of a live block returns and keeps the data, if it has copied
the bytes of the block. -/
theorem Contract.keepsData {api : Api ι} {ok : Globals ι → Call → Prop}
    (hcontract : Contract binOf api ok) (hinv : Inv binOf w) {ptr size : Nat}
    (hptr : w.Holds ptr) (hpos : size ≠ 0) (hallows : w.Allows (.realloc ptr size))
    (hok : ok w.heap (.realloc ptr size)) :
    ∃ w' q, w.exec api (.realloc ptr size) = some (w', q) ∧
      api.realloc w.heap ptr size = some (w'.heap, q) ∧ Inv binOf w' ∧ (∃ p, w'.Holds p) ∧
      ((q ≠ 0 → ∀ i < min (w.chunk ptr - 8) size,
          w'.heap.mem (q + i) = w.heap.mem (ptr + i)) → KeepsData w ptr size w' q) := by
  obtain ⟨w', q, hexec, hinv', hconsiderate⟩ := hcontract.step hinv hallows hok
  obtain ⟨hcall, hrefused, hreturned⟩ := Client.exec_resize hpos hexec
  have hisolated := hinv'.isolated
  have hheld : q ≠ 0 → (q, size) ∈ w'.live := by
    intro hq
    rw [hreturned hq]
    exact List.mem_cons_self
  refine ⟨w', q, hexec, hcall, hinv', ?_, fun hdata => ⟨hrefused, ?_, hdata, ?_, ?_⟩⟩
  · by_cases hq : q = 0
    · obtain ⟨n, hmem⟩ := hptr
      rw [← hrefused hq] at hmem
      exact ⟨ptr, n, hmem⟩
    · exact ⟨q, size, hheld hq⟩
  · intro hq
    exact ⟨⟨size, hheld hq⟩, hisolated.aligned q ⟨size, hheld hq⟩,
      hisolated.capacity q size (hheld hq)⟩
  · rintro hq hne ⟨n, hmem⟩
    rw [hreturned hq, List.mem_cons] at hmem
    rcases hmem with heq | hmem
    · exact hne (Prod.mk.inj heq).1.symm
    · have hkept := (List.mem_filter.mp hmem).2
      simp at hkept
  · rintro p ⟨n, hmem⟩ hne
    refine ⟨⟨n, ?_⟩, hconsiderate.untouched p ⟨n, hmem⟩ hne⟩
    by_cases hq : q = 0
    · rw [hrefused hq]
      exact hmem
    · rw [hreturned hq]
      apply List.mem_cons_of_mem
      exact List.mem_filter.mpr ⟨hmem, by simpa using hne⟩

end Isolation

section Failures

variable {api : Api ι}

/-- After a first failure of `mmap` that nobody checked the client gets a pointer
that is not aligned. -/
theorem isolation_fails_late {reallocMax : Nat}
    (hok : (Client.initial ι).Disciplined (2 ^ 63) reallocMax (.malloc 0))
    (hrun : ((Client.initial ι).step api (.malloc 0)).map (fun w => w.live) =
      some [(4113, 0)]) :
    ∃ w, (Client.initial ι).step api (.malloc 0) = some w ∧
      Runs.Reach (Client.step api) (Client.Disciplined (2 ^ 63) reallocMax)
        (Client.initial ι) w ∧ ¬ Isolated w := by
  obtain ⟨w, hw, hlive⟩ := Option.map_eq_some_iff.mp hrun
  refine ⟨w, hw, .next .start hok hw, ?_⟩
  intro hisolated
  have halign := hisolated.aligned 4113 ⟨0, by rw [hlive]; exact List.mem_cons_self⟩
  omega

/-- A request whose sum with the break wraps gets a block that is too small. -/
theorem isolation_fails_high {reallocMax : Nat}
    (hok : Runs.RunOk (Client.step api) (Client.Disciplined (2 ^ 63) reallocMax)
      (Client.initial ι) [.malloc 16, .malloc (2 ^ 63)])
    (hrun : (Runs.run (Client.step api) (Client.initial ι) [.malloc 16, .malloc (2 ^ 63)]).map
      (fun w => (w.live, w.chunk (2 ^ 63 + 48))) =
        some ([(2 ^ 63 + 48, 2 ^ 63), (2 ^ 63 + 16, 16)], 16)) :
    ∃ w, Runs.run (Client.step api) (Client.initial ι) [.malloc 16, .malloc (2 ^ 63)] =
        some w ∧
      Runs.Reach (Client.step api) (Client.Disciplined (2 ^ 63) reallocMax)
        (Client.initial ι) w ∧ ¬ Isolated w := by
  obtain ⟨w, hw, hfacts⟩ := Option.map_eq_some_iff.mp hrun
  simp only [Prod.mk.injEq] at hfacts
  obtain ⟨hlive, hchunk⟩ := hfacts
  refine ⟨w, hw, Runs.Reach.of_run .start hok hw, ?_⟩
  intro hisolated
  have hfit := hisolated.capacity (2 ^ 63 + 48) (2 ^ 63)
    (by rw [hlive]; exact List.mem_cons_self)
  omega

end Failures

namespace Segregated

/-- The clients of `segregated_allocator.c` are isolated in every state of an
admitted run. -/
theorem client_isolation {mmap : Mmap} (hsound : mmap.Sound) {w : Client Bin}
    (hreach : Runs.Reach (Client.step (api mmap)) (Admits mmap) (Client.initial Bin) w) :
    Isolated w ∧ ∀ call, Admits mmap w call → ∃ w' p, w.exec (api mmap) call = some (w', p) ∧
      Isolated w' ∧ Considerate w call w' p :=
  (contract hsound).isolation (fun _ _ hadmits => hadmits.safe) hreach

theorem client_isolation_example : ∃ w : Client Bin,
    Runs.run (Client.step (api lowRegion)) (Client.initial Bin)
        [.malloc 40, .malloc 100, .free 4112, .calloc 2 8, .write 4273 7, .realloc 4160 300] =
      some w ∧ w.live = [(4304, 300), (4272, 16)] ∧ Isolated w := by
  have hlive : (Runs.run (Client.step (api lowRegion)) (Client.initial Bin)
      [.malloc 40, .malloc 100, .free 4112, .calloc 2 8, .write 4273 7, .realloc 4160 300]).map
      (fun w => w.live) = some [(4304, 300), (4272, 16)] := by decide +kernel
  obtain ⟨w, hrun, hw⟩ := Option.map_eq_some_iff.mp hlive
  have hreach : Runs.Reach (Client.step (api lowRegion)) (Admits lowRegion)
      (Client.initial Bin) w := .of_run .start (by decide +kernel) hrun
  exact ⟨w, hrun, hw, (client_isolation lowRegion_sound hreach).1⟩

/-- Isolation is lost after the unchecked failure of `mmap`, and after a sum that
wraps. -/
theorem client_isolation_fails :
    (lateRegion.Sound ∧ ∃ w, (Client.initial Bin).step (api lateRegion) (.malloc 0) = some w ∧
      Runs.Reach (Client.step (api lateRegion)) (Client.Disciplined (2 ^ 63) (2 ^ 63))
        (Client.initial Bin) w ∧ ¬ Isolated w) ∧
    highRegion.Sound ∧ ∃ w, Runs.run (Client.step (api highRegion)) (Client.initial Bin)
        [.malloc 16, .malloc (2 ^ 63)] = some w ∧
      Runs.Reach (Client.step (api highRegion)) (Client.Disciplined (2 ^ 63) (2 ^ 63))
        (Client.initial Bin) w ∧ ¬ Isolated w :=
  ⟨⟨lateRegion_sound, isolation_fails_late (by decide +kernel) (by decide +kernel)⟩,
    highRegion_sound, isolation_fails_high (by decide +kernel)
      (by decide +kernel)⟩

end Segregated

namespace FirstFit

/-- The clients of `allocator.c` are isolated in every state of an admitted run,
through merges, growth in place and cut-off tails. -/
theorem client_isolation_with_merging {mmap : Mmap} (hsound : mmap.Sound) {w : Client Unit}
    (hreach : Runs.Reach (Client.step (api mmap)) (Admits mmap) (Client.initial Unit) w) :
    Isolated w ∧ ∀ call, Admits mmap w call → ∃ w' p, w.exec (api mmap) call = some (w', p) ∧
      Isolated w' ∧ Considerate w call w' p :=
  (contract hsound).isolation (fun _ _ hadmits => hadmits.safe) hreach

theorem client_isolation_with_merging_example : ∃ w : Client Unit,
    Runs.run (Client.step (api lowRegion)) (Client.initial Unit)
        [.malloc 40, .malloc 100, .free 4112, .calloc 2 8, .write 4113 7, .realloc 4160 300] =
      some w ∧ w.live = [(4272, 300), (4112, 16)] ∧ Isolated w := by
  have hlive : (Runs.run (Client.step (api lowRegion)) (Client.initial Unit)
      [.malloc 40, .malloc 100, .free 4112, .calloc 2 8, .write 4113 7, .realloc 4160 300]).map
      (fun w => w.live) = some [(4272, 300), (4112, 16)] := by decide +kernel
  obtain ⟨w, hrun, hw⟩ := Option.map_eq_some_iff.mp hlive
  have hreach : Runs.Reach (Client.step (api lowRegion)) (Admits lowRegion)
      (Client.initial Unit) w := .of_run .start (by decide +kernel) hrun
  exact ⟨w, hrun, hw, (client_isolation_with_merging lowRegion_sound hreach).1⟩

/-- Isolation is lost after the unchecked failure of `mmap`, and after a sum that
wraps. -/
theorem client_isolation_with_merging_fails :
    (lateRegion.Sound ∧ ∃ w, (Client.initial Unit).step (api lateRegion) (.malloc 0) = some w ∧
      Runs.Reach (Client.step (api lateRegion)) (Client.Disciplined (2 ^ 63) (2 ^ 32 - 24))
        (Client.initial Unit) w ∧ ¬ Isolated w) ∧
    highRegion.Sound ∧ ∃ w, Runs.run (Client.step (api highRegion)) (Client.initial Unit)
        [.malloc 16, .malloc (2 ^ 63)] = some w ∧
      Runs.Reach (Client.step (api highRegion)) (Client.Disciplined (2 ^ 63) (2 ^ 32 - 24))
        (Client.initial Unit) w ∧ ¬ Isolated w :=
  ⟨⟨lateRegion_sound, isolation_fails_late (by decide +kernel) (by decide +kernel)⟩,
    highRegion_sound, isolation_fails_high (by decide +kernel)
      (by decide +kernel)⟩

end FirstFit

end AllocSitter
