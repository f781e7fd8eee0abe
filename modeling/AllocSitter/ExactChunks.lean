/-
No hidden slack: a live block is exactly as large as the request for it needs, whatever
block it was cut from, and the live bytes are a sum over the requests.
-/
import AllocSitter.Accounting

namespace AllocSitter

open ByteMemory LinkedChain Tiling

variable {ι : Type}

/-- The byte count that a call asks for. -/
def Call.bytes : Call → Nat
  | .malloc size => size
  | .calloc nmemb size => nmemb * size
  | .realloc _ size => size
  | _ => 0

/-- Each block held is as large as the last request for it needs. -/
def Exact (w : Client ι) : Prop :=
  ∀ entry ∈ w.live, w.chunk entry.1 = chunkNeed entry.2

/-- The same of the blocks held at other pointers than `loose`. -/
def ExactBut (loose : List Nat) (w : Client ι) : Prop :=
  ∀ entry ∈ w.live, entry.1 ∉ loose → w.chunk entry.1 = chunkNeed entry.2

theorem exactBut_nil {w : Client ι} : ExactBut [] w ↔ Exact w := by
  simp [ExactBut, Exact]

theorem Effect.mem_after {before after : List Block} {given size q : Nat}
    (h : Effect before given size after q) {b : Block} (hb : b ∈ after) :
    b ∈ before ∨ b.payload = q := by
  cases h with
  | keep _ hperm => exact Or.inl (hperm.mem_iff.mp hb)
  | gain _ hperm _ =>
      rcases List.mem_cons.mp (hperm.mem_iff.mp hb) with rfl | hb
      · exact Or.inr rfl
      · exact Or.inl hb
  | lose _ hperm => exact Or.inl (hperm.mem_iff.mpr (List.mem_cons_of_mem _ hb))
  | swap _ hbefore hafter _ =>
      rcases List.mem_cons.mp (hafter.mem_iff.mp hb) with rfl | hb
      · exact Or.inr rfl
      · exact Or.inl (hbefore.mem_iff.mpr (List.mem_cons_of_mem _ hb))

section Step

variable [DecidableEq ι] {binOf : Nat → ι} {w w' : Client ι} {L : Layout ι}

/-- A pointer is held once. -/
theorem Inv.keys_nodup (h : Inv binOf w) : (w.live.map Prod.fst).Nodup := by
  obtain ⟨L, hrep, howns⟩ := h
  exact howns.pointers.nodup_iff.mpr hrep.payload_nodup

theorem Inv.entry_unique (h : Inv binOf w) {ptr n n' : Nat} (hn : (ptr, n) ∈ w.live)
    (hn' : (ptr, n') ∈ w.live) : n = n' :=
  congrArg Prod.snd (List.inj_on_of_nodup_map h.keys_nodup hn hn' rfl)

/-- Seen from the client, a call that returns `q` has left the other blocks as they were. -/
structure Leaves (w w' : Client ι) (size q : Nat) : Prop where
  held : q ≠ 0 → (q, size) ∈ w'.live
  others : ∀ entry ∈ w'.live, entry.1 ≠ q → entry ∈ w.live ∧ w'.chunk entry.1 = w.chunk entry.1

/-- The blocks that a call has not returned were there before, with the same size. -/
theorem Served.leaves {given size q : Nat} (h : Represents binOf w.heap L)
    (hserved : Served binOf w.heap L given size w'.heap q) (hinv : Inv binOf w')
    (hlive : ∀ entry ∈ w'.live, entry ∈ w.live ∨ entry = (q, size))
    (hheld : q ≠ 0 → (q, size) ∈ w'.live) : Leaves w w' size q := by
  obtain ⟨L', hrep, heffect, _⟩ := hserved
  obtain ⟨L₁, hrep₁, howns⟩ := hinv
  refine ⟨hheld, ?_⟩
  rintro ⟨ptr, n⟩ hentry hne
  obtain ⟨b, hb, rfl, _⟩ := howns.block_of_mem hentry
  rw [hrep₁.blocks_unique hrep] at hb
  have hbefore := (heffect.mem_after hb).resolve_right hne
  constructor
  · exact (hlive _ hentry).resolve_right fun heq => hne (congrArg Prod.fst heq)
  · have hsame : w.chunk b.payload = b.size := h.chunk_eq (Layout.mem_usedBlocks.mp hbefore).1
    exact (hrep.chunk_eq (Layout.mem_usedBlocks.mp hb).1).trans hsame.symm

theorem Client.mem_hold {live : List (Nat × Nat)} {ptr size : Nat} {entry : Nat × Nat}
    (h : entry ∈ Client.hold live ptr size) : entry ∈ live ∨ entry = (ptr, size) := by
  unfold Client.hold at h
  split at h
  · exact Or.inl h
  · exact (List.mem_cons.mp h).symm

theorem Client.hold_self {live : List (Nat × Nat)} {ptr size : Nat} (hptr : ptr ≠ 0) :
    (ptr, size) ∈ Client.hold live ptr size := by
  rw [Client.hold, if_neg hptr]
  exact List.mem_cons_self

theorem Client.mem_of_drop {live : List (Nat × Nat)} {ptr : Nat} {entry : Nat × Nat}
    (h : entry ∈ Client.drop live ptr) : entry ∈ live :=
  (List.mem_filter.mp h).1

/-- One admitted call of an allocator, seen from the client. -/
theorem Contract.leaves {api : Api ι} {ok : Globals ι → Call → Prop}
    (hcontract : Contract binOf api ok) (hinv : Inv binOf w) {call : Call} {q : Nat}
    (hallows : w.Allows call) (hok : ok w.heap call)
    (hexec : w.exec api call = some (w', q)) : Leaves w w' call.bytes q := by
  have hinv' := hcontract.keeps hinv hallows hok (Client.step_of_exec hexec)
  obtain ⟨L, h, howns⟩ := hinv
  cases call with
  | malloc size =>
      obtain ⟨s', p', heq, hserved⟩ := hcontract.malloc h hok
      obtain ⟨hcall, hlive⟩ := Client.exec_malloc hexec
      obtain ⟨rfl, rfl⟩ := Prod.mk.inj (Option.some.inj (heq.symm.trans hcall))
      refine hserved.leaves h hinv' (fun entry hentry => ?_) (fun hp => ?_)
      · exact Client.mem_hold (hlive ▸ hentry)
      · rw [hlive]
        exact Client.hold_self hp
  | calloc nmemb size =>
      obtain ⟨s', p', heq, hserved, _⟩ := hcontract.calloc h hok
      obtain ⟨hcall, hlive⟩ := Client.exec_calloc hexec
      obtain ⟨rfl, rfl⟩ := Prod.mk.inj (Option.some.inj (heq.symm.trans hcall))
      refine hserved.leaves h hinv' (fun entry hentry => ?_) (fun hp => ?_)
      · exact Client.mem_hold (hlive ▸ hentry)
      · rw [hlive]
        exact Client.hold_self hp
  | free ptr =>
      obtain ⟨s', heq, hserved⟩ := hcontract.free h (howns.owned hallows)
      obtain ⟨hcall, hlive, rfl⟩ := Client.exec_free hexec
      obtain rfl := Option.some.inj (heq.symm.trans hcall)
      refine hserved.leaves h hinv' (fun entry hentry => ?_) (fun hp => absurd rfl hp)
      exact Or.inl (Client.mem_of_drop (hlive ▸ hentry))
  | realloc ptr size =>
      obtain ⟨s', p', heq, hserved⟩ := hcontract.realloc h (howns.owned hallows.1) hok
      obtain ⟨hcall, hlive⟩ := Client.exec_realloc hexec
      obtain ⟨rfl, rfl⟩ := Prod.mk.inj (Option.some.inj (heq.symm.trans hcall))
      refine hserved.leaves h hinv' (fun entry hentry => ?_) (fun hp => ?_)
      · rw [hlive] at hentry
        split at hentry
        · exact Or.inl hentry
        · exact (Client.mem_hold hentry).imp_left Client.mem_of_drop
      · rw [hlive, if_neg fun hboth => hp hboth.1]
        exact Client.hold_self hp
  | write addr byte =>
      obtain ⟨rfl, rfl⟩ := Prod.mk.inj (Option.some.inj hexec)
      refine ⟨fun hp => absurd rfl hp, ?_⟩
      rintro ⟨ptr, n⟩ hentry _
      have hrest := h.client_write howns hallows
      obtain ⟨b, hb, rfl, _⟩ := howns.block_of_mem hentry
      have hrow := (Layout.mem_usedBlocks.mp hb).1
      refine ⟨hentry, ?_⟩
      rw [h.chunk_eq hrow]
      exact hrest.chunk_eq (w := ⟨_, w.live⟩) hrow
  | statReset =>
      obtain ⟨rfl, rfl⟩ := Prod.mk.inj (Option.some.inj hexec)
      obtain ⟨_, hmem⟩ := hcontract.statReset h
      refine ⟨fun hp => absurd rfl hp, fun entry hentry _ => ⟨hentry, ?_⟩⟩
      simp only [Client.chunk, hmem]

/-- One admitted call of an allocator, after which the blocks at `loose'` are no longer, or
not known to be, exact. -/
theorem Contract.exactBut_step {api : Api ι} {ok : Globals ι → Call → Prop}
    (hcontract : Contract binOf api ok) (hinv : Inv binOf w) {call : Call} {q : Nat}
    {loose loose' : List Nat} (hallows : w.Allows call) (hok : ok w.heap call)
    (hexec : w.exec api call = some (w', q))
    (hnew : q ≠ 0 → q ∉ loose' → w'.chunk q = chunkNeed call.bytes)
    (hloose : ∀ ptr, w'.Holds ptr → ptr ≠ q → ptr ∉ loose' → ptr ∉ loose)
    (hexact : ExactBut loose w) : ExactBut loose' w' := by
  have hinv' := hcontract.keeps hinv hallows hok (Client.step_of_exec hexec)
  obtain ⟨hheld, hothers⟩ := hcontract.leaves hinv hallows hok hexec
  rintro ⟨ptr, n⟩ hentry hptr
  by_cases hq : ptr = q
  · subst hq
    have hnull : ptr ≠ 0 := fun heq => hinv'.null_not_held ⟨n, heq ▸ hentry⟩
    rw [hinv'.entry_unique hentry (hheld hnull)]
    exact hnew hnull hptr
  · obtain ⟨hbefore, hsame⟩ := hothers (ptr, n) hentry hq
    exact hsame.trans (hexact (ptr, n) hbefore (hloose ptr ⟨n, hentry⟩ hq hptr))

/-- One admitted call of an allocator whose blocks are exact. -/
theorem Contract.exact_step {api : Api ι} {ok : Globals ι → Call → Prop}
    (hcontract : Contract binOf api ok) (hinv : Inv binOf w) {call : Call} {q : Nat}
    (hallows : w.Allows call) (hok : ok w.heap call)
    (hexec : w.exec api call = some (w', q))
    (hnew : q ≠ 0 → w'.chunk q = chunkNeed call.bytes) (hexact : Exact w) : Exact w' := by
  rw [← exactBut_nil] at hexact ⊢
  exact hcontract.exactBut_step hinv hallows hok hexec (fun hq _ => hnew hq)
    (fun _ _ _ hptr => hptr) hexact

end Step

section Returned

variable [DecidableEq ι] {binOf : Nat → ι} {account : Nat → AllocStat → AllocStat} {mmap : Mmap}
  {s s' : Globals ι} {w w' : Client ι} {L L' : Layout ι} {need p q : Nat}

/-- What `my_malloc` returns is a used block of the size it needs. -/
theorem MallocCase.returned (hcase : MallocCase binOf account mmap s L need s' p L')
    (h : Represents binOf s L) (hp : p ≠ 0) :
    ∃ u, p = u.payload ∧ u.size = need ∧
      (Layout.usedBlocks L'.blocks).Perm (u :: Layout.usedBlocks L.blocks) := by
  rcases hcase.gains h.lists_free with ⟨hnull, _⟩ | ⟨u, _, _, _, hu, hsize, hperm, _⟩
  · exact absurd hnull hp
  · exact ⟨u, hu, hsize, hperm⟩

/-- A block that `my_malloc` has returned, seen from the client in a heap with the same
row. -/
theorem MallocCase.chunk_eq (hcase : MallocCase binOf account mmap s L need s' q L')
    (h : Represents binOf s L) (hrep : Represents binOf w'.heap L') (hq : q ≠ 0) :
    w'.chunk q = need := by
  obtain ⟨u, rfl, hsize, hperm⟩ := hcase.returned h hq
  have hu : u ∈ Layout.usedBlocks L'.blocks := hperm.mem_iff.mpr List.mem_cons_self
  rw [hrep.chunk_eq (Layout.mem_usedBlocks.mp hu).1, hsize]

variable (haccount : ∀ n stat, (account n stat).freelistLen = stat.freelistLen)
  (hsound : mmap.Sound) (h : Represents binOf w.heap L)

include haccount hsound h

theorem mallocWith_chunk {size : Nat} (hsize : size + 40 ≤ 2 ^ 64)
    (hsafe : RequestSafe binOf mmap w.heap size)
    (hcall : mallocWith binOf account mmap w.heap size = some (w'.heap, q)) (hq : q ≠ 0) :
    w'.chunk q = chunkNeed size := by
  obtain ⟨s', p, L', heq, hcase, hrep, _⟩ := mallocWith_spec haccount h hsound hsize hsafe
  obtain ⟨rfl, rfl⟩ := Prod.mk.inj (Option.some.inj (heq.symm.trans hcall))
  exact hcase.chunk_eq h hrep hq

theorem callocWith_chunk {nmemb size : Nat}
    (hsafe : ∀ n, callocRequest nmemb size = some n →
      n + 40 ≤ 2 ^ 64 ∧ RequestSafe binOf mmap w.heap n)
    (hcall : callocWith (mallocWith binOf account mmap) w.heap nmemb size = some (w'.heap, q))
    (hq : q ≠ 0) : w'.chunk q = chunkNeed (nmemb * size) := by
  cases hrequest : callocRequest nmemb size with
  | none =>
      have hnull := hcall.symm.trans (callocWith_none hrequest)
      exact absurd (Prod.mk.inj (Option.some.inj hnull)).2 hq
  | some n =>
      obtain ⟨hsize, hsafe'⟩ := hsafe n hrequest
      obtain ⟨s₁, p, L', m, _, heq, hcase, _, hrep, _⟩ :=
        callocWith_spec haccount hsound h hrequest hsize hsafe'
      obtain ⟨hheap, rfl⟩ := Prod.mk.inj (Option.some.inj (hcall.symm.trans heq))
      rw [← hheap] at hrep
      rw [hcase.chunk_eq h hrep hq, (callocRequest_eq hrequest).1]

end Returned

namespace Segregated

variable {mmap : Mmap} {w w' : Client Bin} {q : Nat}

/-- The new block of `my_realloc` keeps its size when the old one is freed. -/
theorem realloc_chunk (hsound : mmap.Sound) {L : Layout Bin} {c : Block} {size : Nat}
    (h : Represents sizeToBin w.heap L) (hc : c ∈ Layout.usedBlocks L.blocks)
    (hpos : size ≠ 0) (hsize : size + 40 ≤ 2 ^ 64)
    (hsafe : RequestSafe sizeToBin mmap w.heap size)
    (hcall : myRealloc mmap w.heap c.payload size = some (w'.heap, q)) (hq : q ≠ 0) :
    w'.chunk q = chunkNeed size := by
  obtain ⟨s₁, p, L₁, _, hcase, hrep, _, hresult⟩ := myRealloc_spec hsound h hc hpos hsize hsafe
  rcases hresult with ⟨_, hnull⟩ | ⟨s₂, _, hp, hrep₂, hc₁, _, _, hmoved⟩
  · exact absurd (Prod.mk.inj (Option.some.inj (hcall.symm.trans hnull))).2 hq
  · obtain ⟨hheap, rfl⟩ := Prod.mk.inj (Option.some.inj (hcall.symm.trans hmoved))
    obtain ⟨u, rfl, hneed, hperm⟩ := hcase.returned h hp
    obtain ⟨L₃, hrep₃, hlose, _⟩ := myFree_freed hrep₂ hc₁
    have hu : u ∈ Layout.usedBlocks L₁.blocks := hperm.mem_iff.mpr List.mem_cons_self
    have hne : u ≠ c := (hrep.gained hperm hc).2.symm
    have hu₃ : u ∈ Layout.usedBlocks L₃.blocks :=
      (List.mem_cons.mp (hlose.mem_iff.mp hu)).resolve_left hne
    rw [← hheap] at hrep₃
    rw [hrep₃.chunk_eq (Layout.mem_usedBlocks.mp hu₃).1, hneed]

/-- Every block that an admitted call returns is exact. -/
theorem returned_chunk (hsound : mmap.Sound) {call : Call} (hinv : Inv sizeToBin w)
    (hadmits : Admits mmap w call) (hexec : w.exec (api mmap) call = some (w', q))
    (hq : q ≠ 0) : w'.chunk q = chunkNeed call.bytes := by
  obtain ⟨hallows, hsafe⟩ := hadmits.safe
  obtain ⟨L, h, howns⟩ := hinv
  cases call with
  | malloc size =>
      obtain ⟨hsize, hsafe'⟩ := hsafe size rfl
      exact mallocWith_chunk liveAdd_freelistLen hsound h hsize hsafe'
        (Client.exec_malloc hexec).1 hq
  | calloc nmemb size =>
      exact callocWith_chunk liveAdd_freelistLen hsound h hsafe (Client.exec_calloc hexec).1 hq
  | free ptr =>
      exact absurd (Client.exec_free hexec).2.2 hq
  | realloc ptr size =>
      have hcall : myRealloc mmap w.heap ptr size = some (w'.heap, q) :=
        (Client.exec_realloc hexec).1
      by_cases hnull : ptr = 0
      · obtain ⟨hsize, hsafe'⟩ := hsafe size (by simp [request, hnull])
        rw [myRealloc, if_pos hnull] at hcall
        exact mallocWith_chunk liveAdd_freelistLen hsound h hsize hsafe' hcall hq
      · by_cases hzero : size = 0
        · rw [myRealloc, if_neg hnull, if_pos hzero] at hcall
          exact absurd (Prod.mk.inj (Option.some.inj hcall)).2.symm hq
        · obtain ⟨hsize, hsafe'⟩ := hsafe size (by simp [request, hzero])
          obtain ⟨n, hmem⟩ := hallows.1.resolve_left hnull
          obtain ⟨c, hc, rfl, _⟩ := howns.block_of_mem hmem
          exact realloc_chunk hsound h hc hzero hsize hsafe' hcall hq
  | write addr byte => exact absurd (Prod.mk.inj (Option.some.inj hexec)).2.symm hq
  | statReset => exact absurd (Prod.mk.inj (Option.some.inj hexec)).2.symm hq

/-- The live bytes are what the live requests need, where all live blocks are exact. -/
theorem Accounts.live_eq {shape : State → List Block → Prop} [LawfulShape shape]
    {fit : Nat → Nat → Prop} {L : Layout Bin} (hacc : Accounts w.heap L)
    (h : RepresentsIn shape sizeToBin w.heap L)
    (howns : OwnsBy fit w.live (Layout.usedBlocks L.blocks)) (hexact : Exact w) :
    w.heap.stat.liveRealBytes = (w.live.map fun entry => chunkNeed entry.2).sum := by
  have hsizes : (Layout.usedBlocks L.blocks).map Block.size =
      ((Layout.usedBlocks L.blocks).map Block.payload).map w.chunk := by
    rw [List.map_map]
    apply List.map_congr_left
    intro b hb
    exact (h.chunk_eq (Layout.mem_usedBlocks.mp hb).1).symm
  calc w.heap.stat.liveRealBytes
      = (((Layout.usedBlocks L.blocks).map Block.payload).map w.chunk).sum := by
        rw [hacc.live, Layout.bytes, hsizes]
    _ = ((w.live.map Prod.fst).map w.chunk).sum := (howns.pointers.map w.chunk).sum_eq.symm
    _ = (w.live.map fun entry => chunkNeed entry.2).sum := by
        rw [List.map_map]
        congr 1
        apply List.map_congr_left
        exact hexact

end Segregated

end AllocSitter
