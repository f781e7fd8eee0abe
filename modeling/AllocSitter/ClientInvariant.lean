/-
The client's side of the contract: the pointers it holds are the payloads of the
used blocks, and every admitted call keeps it so.
-/
import AllocSitter.Contract

namespace AllocSitter

open ByteMemory LinkedChain Tiling

variable {ι : Type}

/-- The client holds one pointer to each used block, whose size fits what it asked
for. -/
structure OwnsBy (fit : Nat → Nat → Prop) (live : List (Nat × Nat)) (used : List Block) :
    Prop where
  pointers : (live.map Prod.fst).Perm (used.map Block.payload)
  room : ∀ entry ∈ live, ∀ b ∈ used, entry.1 = b.payload → fit entry.2 b.size

/-- Each block has room for what the client asked for. -/
abbrev Owns : List (Nat × Nat) → List Block → Prop :=
  OwnsBy fun n size => n + 8 ≤ size

namespace OwnsBy

variable {fit : Nat → Nat → Prop} {live : List (Nat × Nat)} {before after : List Block}
  {c u : Block} {size : Nat}

theorem mono {fit' : Nat → Nat → Prop} (h : OwnsBy fit live before)
    (hfit : ∀ n size, fit n size → fit' n size) : OwnsBy fit' live before :=
  ⟨h.pointers, fun entry hentry b hb heq => hfit _ _ (h.room entry hentry b hb heq)⟩

theorem perm (h : OwnsBy fit live before) (hperm : after.Perm before) :
    OwnsBy fit live after :=
  ⟨h.pointers.trans (hperm.map Block.payload).symm,
    fun entry hentry b hb => h.room entry hentry b (hperm.mem_iff.mp hb)⟩

/-- A pointer held is the payload of a used block. -/
theorem block_of_mem (h : OwnsBy fit live before) {ptr n : Nat} (hmem : (ptr, n) ∈ live) :
    ∃ b ∈ before, ptr = b.payload ∧ fit n b.size := by
  have hptr : ptr ∈ before.map Block.payload :=
    h.pointers.mem_iff.mp (List.mem_map_of_mem hmem)
  obtain ⟨b, hb, rfl⟩ := List.mem_map.mp hptr
  exact ⟨b, hb, rfl, h.room _ hmem b hb rfl⟩

theorem mem_of_block (h : OwnsBy fit live before) {b : Block} (hb : b ∈ before) :
    ∃ n, (b.payload, n) ∈ live := by
  have hptr : b.payload ∈ live.map Prod.fst :=
    h.pointers.mem_iff.mpr (List.mem_map_of_mem hb)
  obtain ⟨entry, hentry, heq⟩ := List.mem_map.mp hptr
  exact ⟨entry.2, heq ▸ hentry⟩

theorem hold (h : OwnsBy fit live before) (hperm : after.Perm (u :: before))
    (hnodup : (after.map Block.payload).Nodup) (hnull : u.payload ≠ 0)
    (hfit : fit size u.size) : OwnsBy fit (Client.hold live u.payload size) after := by
  rw [(hperm.map Block.payload).nodup_iff, List.map_cons, List.nodup_cons] at hnodup
  simp only [Client.hold, hnull, ↓reduceIte]
  constructor
  · rw [List.map_cons]
    exact (h.pointers.cons u.payload).trans (hperm.map Block.payload).symm
  · intro entry hentry b hb heq
    rw [List.mem_cons] at hentry
    have hb' := hperm.mem_iff.mp hb
    rw [List.mem_cons] at hb'
    rcases hentry with rfl | hentry
    · rcases hb' with rfl | hb'
      · exact hfit
      · have hmem : u.payload ∈ before.map Block.payload := by
          rw [show u.payload = b.payload from heq]
          exact List.mem_map_of_mem hb'
        exact absurd hmem hnodup.1
    · rcases hb' with rfl | hb'
      · have hmem : b.payload ∈ before.map Block.payload :=
          h.pointers.mem_iff.mp (heq ▸ List.mem_map_of_mem hentry)
        exact absurd hmem hnodup.1
      · exact h.room entry hentry b hb' heq

theorem drop (h : OwnsBy fit live before) (hperm : before.Perm (c :: after))
    (hnodup : (before.map Block.payload).Nodup) :
    OwnsBy fit (Client.drop live c.payload) after := by
  rw [(hperm.map Block.payload).nodup_iff, List.map_cons, List.nodup_cons] at hnodup
  constructor
  · have hfilter : ((live.map Prod.fst).filter fun ptr => decide (ptr ≠ c.payload)).Perm
        ((before.map Block.payload).filter fun ptr => decide (ptr ≠ c.payload)) :=
      h.pointers.filter _
    have hleft : (Client.drop live c.payload).map Prod.fst =
        (live.map Prod.fst).filter fun ptr => decide (ptr ≠ c.payload) := by
      rw [List.filter_map]
      rfl
    have hright : ((c :: after).map Block.payload).filter
        (fun ptr => decide (ptr ≠ c.payload)) = after.map Block.payload := by
      rw [List.map_cons, List.filter_cons_of_neg (by simp), List.filter_eq_self]
      intro ptr hptr
      have hne : ptr ≠ c.payload := fun heq => hnodup.1 (heq ▸ hptr)
      simpa using hne
    rw [hleft, ← hright]
    exact hfilter.trans ((hperm.map Block.payload).filter _)
  · intro entry hentry b hb heq
    refine h.room entry (List.mem_filter.mp hentry).1 b ?_ heq
    exact hperm.mem_iff.mpr (List.mem_cons_of_mem c hb)

theorem drop_null (h : OwnsBy fit live before) (hnull : ∀ b ∈ before, b.payload ≠ 0) :
    Client.drop live 0 = live := by
  apply List.filter_eq_self.mpr
  rintro ⟨ptr, n⟩ hentry
  obtain ⟨b, hb, rfl, _⟩ := h.block_of_mem hentry
  simpa using hnull b hb

end OwnsBy

section Invariant

variable [DecidableEq ι] {binOf : Nat → ι}

/-- The heap is well formed and the client holds its used blocks. -/
def Inv (binOf : Nat → ι) (w : Client ι) : Prop :=
  ∃ L, Represents binOf w.heap L ∧ Owns w.live (Layout.usedBlocks L.blocks)

theorem inv_initial (binOf : Nat → ι) : Inv binOf (Client.initial ι) :=
  ⟨Layout.empty ι, represents_initial binOf, ⟨List.Perm.refl _, by simp [Client.initial]⟩⟩

variable {shape : Globals ι → List Block → Prop} [LawfulShape shape] {w : Client ι}
  {L : Layout ι}

theorem RepresentsIn.chunk_eq (h : RepresentsIn shape binOf w.heap L) {b : Block}
    (hb : b ∈ L.blocks) : w.chunk b.payload = b.size := by
  unfold Client.chunk
  rw [h.header_eq hb]
  exact (h.threaded.tagged b hb).tagSize_head

omit [DecidableEq ι] in
theorem OwnsBy.owned (h : Owns w.live (Layout.usedBlocks L.blocks)) {ptr : Nat}
    (hptr : ptr = 0 ∨ w.Holds ptr) : L.Owned ptr := by
  rcases hptr with rfl | ⟨n, hmem⟩
  · exact Or.inl rfl
  · obtain ⟨b, hb, heq, _⟩ := h.block_of_mem hmem
    exact Or.inr ⟨b, hb, heq⟩

/-- The block behind a pointer that is held. -/
theorem OwnsBy.held (h : RepresentsIn shape binOf w.heap L)
    (howns : Owns w.live (Layout.usedBlocks L.blocks)) {ptr : Nat} (hheld : w.Holds ptr) :
    ∃ b ∈ Layout.usedBlocks L.blocks, ptr = b.payload ∧ b ∈ L.blocks ∧
      w.chunk ptr = b.size := by
  obtain ⟨n, hmem⟩ := hheld
  obtain ⟨b, hb, rfl, _⟩ := howns.block_of_mem hmem
  have hrow := (Layout.mem_usedBlocks.mp hb).1
  exact ⟨b, hb, rfl, hrow, h.chunk_eq hrow⟩

theorem Inv.held_facts (hinv : Inv binOf w) {ptr : Nat} (hheld : w.Holds ptr) :
    ptr % 16 = 0 ∧ 4 ≤ ptr ∧ ptr < 2 ^ 64 ∧ 16 ≤ w.chunk ptr := by
  obtain ⟨L, h, howns⟩ := hinv
  obtain ⟨b, _, rfl, hrow, hchunk⟩ := howns.held h hheld
  have hmod := h.arena.addr_mod hrow
  have hge := b.size_ge
  obtain ⟨_, hhigh, _, hcur, _⟩ := h.room.bounds hrow
  rw [hchunk]
  unfold Block.payload
  omega

theorem Inv.held_room (hinv : Inv binOf w) {ptr size : Nat} (hmem : (ptr, size) ∈ w.live) :
    size + 8 ≤ w.chunk ptr := by
  obtain ⟨L, h, howns⟩ := hinv
  obtain ⟨b, hb, rfl, hfit⟩ := howns.block_of_mem hmem
  rw [h.chunk_eq (Layout.mem_usedBlocks.mp hb).1]
  exact hfit

/-- The blocks behind two pointers are apart, tags included. -/
theorem Inv.held_apart (hinv : Inv binOf w) {ptr ptr' : Nat} (hheld : w.Holds ptr)
    (hheld' : w.Holds ptr') (hne : ptr ≠ ptr') :
    ptr + w.chunk ptr ≤ ptr' ∨ ptr' + w.chunk ptr' ≤ ptr := by
  obtain ⟨L, h, howns⟩ := hinv
  obtain ⟨b, _, rfl, hrow, hchunk⟩ := howns.held h hheld
  obtain ⟨c, _, rfl, hrow', hchunk'⟩ := howns.held h hheld'
  have hapart := h.apart_of_ne hrow hrow' fun heq => hne (congrArg Block.payload heq)
  rw [hchunk, hchunk']
  unfold Block.payload
  omega

/-- A write of the client stays inside a payload. -/
theorem RepresentsIn.client_write (h : RepresentsIn shape binOf w.heap L)
    (howns : Owns w.live (Layout.usedBlocks L.blocks)) {addr : Nat} {byte : UInt8}
    (hallows : w.Allows (.write addr byte)) :
    RepresentsIn shape binOf { w.heap with mem := Function.update w.heap.mem addr byte } L := by
  obtain ⟨ptr, ⟨n, hmem⟩, hlo, hhi⟩ := hallows
  obtain ⟨b, hb, rfl, _⟩ := howns.block_of_mem hmem
  rw [h.chunk_eq (Layout.mem_usedBlocks.mp hb).1] at hhi
  have hsame : SameOutside w.heap.mem (Function.update w.heap.mem addr byte)
      (b.addr + 4) (b.size - 8) := by
    intro x hx
    apply Function.update_of_ne
    unfold Block.payload at hlo hhi
    omega
  exact (h.write_payload hb hsame).1

/-- What the calls do to the client's pointers, in one place: a failed request
keeps them, and otherwise the pointer passed is dropped and the one returned
held. -/
theorem OwnsBy.served {live : List (Nat × Nat)} {s s' : Globals ι} {given size q : Nat}
    (h : Represents binOf s L) (howns : Owns live (Layout.usedBlocks L.blocks))
    (hserved : Served binOf s L given size s' q) :
    Inv binOf ⟨s', if q = 0 ∧ size ≠ 0 then live
      else Client.hold (Client.drop live given) q size⟩ := by
  obtain ⟨L', hrep, heffect, _⟩ := hserved
  have hnull : ∀ b ∈ Layout.usedBlocks L.blocks, b.payload ≠ 0 :=
    fun b hb => h.payload_ne_zero hb
  have hnodup := h.payload_nodup
  have hnodup' := hrep.payload_nodup
  have hnull' : ∀ b ∈ Layout.usedBlocks L'.blocks, b.payload ≠ 0 :=
    fun b hb => hrep.payload_ne_zero hb
  refine ⟨L', hrep, ?_⟩
  generalize Layout.usedBlocks L.blocks = before at *
  generalize Layout.usedBlocks L'.blocks = after at *
  cases heffect with
  | keep hcall hperm =>
      by_cases hsize : size = 0
      · have hgiven : given = 0 := hcall.resolve_right fun hne => hne hsize
        rw [hgiven, howns.drop_null hnull]
        simpa [hsize, Client.hold] using howns.perm hperm
      · simpa [hsize] using howns.perm hperm
  | @gain u hcall hperm hfit =>
      have hu := hnull' u (hperm.mem_iff.mpr List.mem_cons_self)
      rw [hcall, howns.drop_null hnull]
      simpa [hu] using howns.hold hperm hnodup' hu hfit
  | @lose c hcall hperm =>
      have hdrop := howns.drop hperm hnodup
      simpa [hcall.2, hcall.1, Client.hold] using hdrop
  | @swap c u rest hcall hbefore hafter hfit =>
      have hu := hnull' u (hafter.mem_iff.mpr List.mem_cons_self)
      have hdrop := howns.drop hbefore hnodup
      rw [hcall.1]
      simpa [hu] using hdrop.hold hafter hnodup' hu hfit

end Invariant

/-- The blocks whose bytes a call may change: the one it was given.  What the
client itself writes is its own affair. -/
def Call.Touches : Call → Nat → Prop
  | .free ptr, q => q = ptr
  | .realloc ptr _, q => q = ptr
  | .write _ _, _ => True
  | _, _ => False

/-- The new block of `my_calloc` starts with zeros, and no call changes a payload
byte of a live block other than the one it was given. -/
structure Considerate (w : Client ι) (call : Call) (w' : Client ι) (p : Nat) : Prop where
  zeroed : ∀ nmemb size, call = .calloc nmemb size → p ≠ 0 →
    ∀ i < nmemb * size, w'.heap.mem (p + i) = 0
  untouched : ∀ q, w.Holds q → ¬ call.Touches q →
    ∀ x, q ≤ x → x < q + (w.chunk q - 8) → w'.heap.mem x = w.heap.mem x

section Step

variable [DecidableEq ι] {binOf : Nat → ι} {api : Api ι} {ok : Globals ι → Call → Prop}
  {w : Client ι} {call : Call}

/-- Blocks that keep all their bytes keep their payloads. -/
theorem Kept.untouched {L : Layout ι} {m : Memory} {given : Nat}
    (hkept : Kept w.heap.mem m L.blocks given) (h : Represents binOf w.heap L)
    (howns : Owns w.live (Layout.usedBlocks L.blocks)) {q : Nat} (hq : w.Holds q)
    (hne : q ≠ given) {x : Nat} (hlo : q ≤ x) (hhi : x < q + (w.chunk q - 8)) :
    m x = w.heap.mem x := by
  obtain ⟨n, hmem⟩ := hq
  obtain ⟨b, hb, rfl, _⟩ := howns.block_of_mem hmem
  rw [h.chunk_eq (Layout.mem_usedBlocks.mp hb).1] at hhi
  have hge := b.size_ge
  apply hkept b hb hne
  · unfold Block.payload at hlo
    omega
  · unfold Block.payload at hhi
    omega

theorem Inv.null_not_held (hinv : Inv binOf w) : ¬ w.Holds 0 := by
  rintro ⟨n, hmem⟩
  obtain ⟨L, h, howns⟩ := hinv
  obtain ⟨b, hb, heq, _⟩ := howns.block_of_mem hmem
  exact h.payload_ne_zero hb heq.symm

/-- Every admitted call returns, keeps the invariant, and leaves the payloads of
the other live blocks alone. -/
theorem Contract.step (hcontract : Contract binOf api ok) (hinv : Inv binOf w)
    (hallows : w.Allows call) (hok : ok w.heap call) :
    ∃ w' p, w.exec api call = some (w', p) ∧ Inv binOf w' ∧ Considerate w call w' p := by
  have hzero := hinv.null_not_held
  obtain ⟨L, h, howns⟩ := hinv
  -- What an allocation records is what a resize of `NULL` would record.
  have halloc : ∀ {s' : Globals ι} {p size : Nat}, Served binOf w.heap L 0 size s' p →
      Inv binOf ⟨s', Client.hold w.live p size⟩ := by
    intro s' p size hserved
    have hresult := howns.served h hserved
    rw [howns.drop_null fun b hb => h.payload_ne_zero hb] at hresult
    by_cases hp : p = 0 ∧ size ≠ 0
    · simpa [hp, Client.hold] using hresult
    · simpa [hp] using hresult
  cases call with
  | malloc size =>
      obtain ⟨s', p, heq, hserved⟩ := hcontract.malloc h hok
      refine ⟨⟨s', Client.hold w.live p size⟩, p, by simp [Client.exec, heq],
        halloc hserved, ⟨by simp, ?_⟩⟩
      intro q hq _ x hlo hhi
      obtain ⟨_, _, _, hkept⟩ := hserved
      exact hkept.untouched h howns hq (fun heq => hzero (heq ▸ hq)) hlo hhi
  | calloc nmemb size =>
      obtain ⟨s', p, heq, hserved, hzeroed⟩ := hcontract.calloc h hok
      refine ⟨⟨s', Client.hold w.live p (nmemb * size)⟩, p, by simp [Client.exec, heq],
        halloc hserved, ⟨?_, ?_⟩⟩
      · intro nmemb' size' hcall
        obtain ⟨rfl, rfl⟩ := Call.calloc.inj hcall
        exact hzeroed
      · intro q hq _ x hlo hhi
        obtain ⟨_, _, _, hkept⟩ := hserved
        exact hkept.untouched h howns hq (fun heq => hzero (heq ▸ hq)) hlo hhi
  | free ptr =>
      obtain ⟨s', heq, hserved⟩ := hcontract.free h (howns.owned hallows)
      have hresult := howns.served h hserved
      refine ⟨⟨s', Client.drop w.live ptr⟩, 0, by simp [Client.exec, heq],
        by simpa [Client.hold] using hresult, ⟨by simp, ?_⟩⟩
      intro q hq htouch x hlo hhi
      obtain ⟨_, _, _, hkept⟩ := hserved
      exact hkept.untouched h howns hq htouch hlo hhi
  | realloc ptr size =>
      obtain ⟨s', q, heq, hserved⟩ := hcontract.realloc h (howns.owned hallows.1) hok
      refine ⟨_, q, Client.exec_of_realloc heq, howns.served h hserved, ⟨by simp, ?_⟩⟩
      intro q' hq' htouch x hlo hhi
      obtain ⟨_, _, _, hkept⟩ := hserved
      exact hkept.untouched h howns hq' htouch hlo hhi
  | write addr byte =>
      have hrep := h.client_write howns hallows
      refine ⟨_, 0, rfl, ⟨L, hrep, howns⟩, ⟨by simp, ?_⟩⟩
      intro q _ htouch
      exact absurd trivial htouch
  | statReset =>
      obtain ⟨hrep, hmem⟩ := hcontract.statReset h
      refine ⟨_, 0, rfl, ⟨L, hrep, howns⟩, ⟨by simp, ?_⟩⟩
      intro q _ _ x _ _
      exact congrFun hmem x

theorem Contract.keeps (hcontract : Contract binOf api ok) (hinv : Inv binOf w)
    (hallows : w.Allows call) (hok : ok w.heap call) {w' : Client ι}
    (hstep : w.step api call = some w') : Inv binOf w' := by
  obtain ⟨w₁, p, hexec, hinv', _⟩ := hcontract.step hinv hallows hok
  have heq := (Client.step_of_exec hexec).symm.trans hstep
  rwa [← Option.some.inj heq]

/-- The invariant holds in every state of a run of admitted calls. -/
theorem Contract.invariant (hcontract : Contract binOf api ok)
    {admits : Client ι → Call → Prop}
    (hadmits : ∀ w call, admits w call → w.Allows call ∧ ok w.heap call)
    (hreach : Runs.Reach (Client.step api) admits (Client.initial ι) w) : Inv binOf w := by
  apply hreach.invariant (inv_initial binOf)
  intro before call after hinv hadmit hstep
  obtain ⟨hallows, hok⟩ := hadmits before call hadmit
  exact hcontract.keeps hinv hallows hok hstep

end Step

end AllocSitter
