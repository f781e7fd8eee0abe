/-
What a client may rely on, said once for both allocators: how a call changes the
set of used blocks, what it returns, and which blocks keep their bytes.
-/
import AllocSitter.HeldBlocks
import Mathlib.Data.List.Nodup

namespace AllocSitter

open ByteMemory LinkedChain Tiling

variable {ι : Type}

/-- The used blocks before and after a call that is given the pointer `given`
(`NULL` for an allocation) and asked for `size` bytes, and what it returns. -/
inductive Effect (before : List Block) (given size : Nat) (after : List Block) :
    Nat → Prop
  | keep (hcall : given = 0 ∨ size ≠ 0) (hperm : after.Perm before) :
      Effect before given size after 0
  | gain {u : Block} (hcall : given = 0) (hperm : after.Perm (u :: before))
      (hfit : size + 8 ≤ u.size) : Effect before given size after u.payload
  | lose {c : Block} (hcall : given = c.payload ∧ size = 0)
      (hperm : before.Perm (c :: after)) : Effect before given size after 0
  | swap {c u : Block} {rest : List Block} (hcall : given = c.payload ∧ size ≠ 0)
      (hbefore : before.Perm (c :: rest)) (hafter : after.Perm (u :: rest))
      (hfit : size + 8 ≤ u.size) : Effect before given size after u.payload

/-- Every used block but the one at `given` keeps all its bytes. -/
def Kept (m m' : Memory) (blocks : List Block) (given : Nat) : Prop :=
  ∀ b ∈ Layout.usedBlocks blocks, b.payload ≠ given → SameOn m m' b.addr b.size

/-- A new block, and then the old one given back. -/
theorem Effect.move {before between after : List Block} {c u : Block} {size : Nat}
    (hc : c ∈ before) (hgain : between.Perm (u :: before))
    (hlose : between.Perm (c :: after)) (hsize : size ≠ 0) (hfit : size + 8 ≤ u.size) :
    Effect before c.payload size after u.payload := by
  obtain ⟨front, back, rfl⟩ := List.append_of_mem hc
  have hbefore : (front ++ c :: back).Perm (c :: (front ++ back)) := List.perm_middle
  refine .swap ⟨rfl, hsize⟩ hbefore ?_ hfit
  have hboth : (c :: after).Perm (c :: u :: (front ++ back)) := by
    calc List.Perm (c :: after) between := hlose.symm
      List.Perm _ (u :: (front ++ c :: back)) := hgain
      List.Perm _ (u :: c :: (front ++ back)) := hbefore.cons u
      List.Perm _ (c :: u :: (front ++ back)) := List.Perm.swap c u _
  exact hboth.cons_inv

section Contract

variable [DecidableEq ι] {binOf : Nat → ι}

/-- The call has left a represented heap, with an admitted effect on the used
blocks and no effect on the bytes of the others. -/
def Served (binOf : Nat → ι) (s : Globals ι) (L : Layout ι) (given size : Nat)
    (s' : Globals ι) (p : Nat) : Prop :=
  ∃ L', Represents binOf s' L' ∧
    Effect (Layout.usedBlocks L.blocks) given size (Layout.usedBlocks L'.blocks) p ∧
    Kept s.mem s'.mem L.blocks given

/-- The block `c` has been given back, and nothing else has happened. -/
def Freed (binOf : Nat → ι) (s : Globals ι) (L : Layout ι) (c : Block)
    (s' : Globals ι) : Prop :=
  ∃ L', Represents binOf s' L' ∧
    (Layout.usedBlocks L.blocks).Perm (c :: Layout.usedBlocks L'.blocks) ∧
    Kept s.mem s'.mem L.blocks c.payload

/-- A pointer the client may pass: `NULL` or one it holds. -/
def Layout.Owned (L : Layout ι) (ptr : Nat) : Prop :=
  ptr = 0 ∨ ∃ c ∈ Layout.usedBlocks L.blocks, ptr = c.payload

/-- An allocator that serves every call it is asked under `ok`. -/
structure Contract (binOf : Nat → ι) (api : Api ι) (ok : Globals ι → Call → Prop) :
    Prop where
  malloc : ∀ {s L size}, Represents binOf s L → ok s (.malloc size) →
    ∃ s' p, api.malloc s size = some (s', p) ∧ Served binOf s L 0 size s' p
  calloc : ∀ {s L nmemb size}, Represents binOf s L → ok s (.calloc nmemb size) →
    ∃ s' p, api.calloc s nmemb size = some (s', p) ∧
      Served binOf s L 0 (nmemb * size) s' p ∧
      (p ≠ 0 → ∀ i < nmemb * size, s'.mem (p + i) = 0)
  free : ∀ {s L ptr}, Represents binOf s L → L.Owned ptr →
    ∃ s', api.free s ptr = some s' ∧ Served binOf s L ptr 0 s' 0
  realloc : ∀ {s L ptr size}, Represents binOf s L → L.Owned ptr →
    ok s (.realloc ptr size) →
    ∃ s' q, api.realloc s ptr size = some (s', q) ∧ Served binOf s L ptr size s' q
  statReset : ∀ {s L}, Represents binOf s L →
    Represents binOf (api.statReset s) L ∧ (api.statReset s).mem = s.mem

variable {shape : Globals ι → List Block → Prop} [LawfulShape shape] {s : Globals ι}
  {L : Layout ι}

theorem RepresentsIn.used_bounds (h : RepresentsIn shape binOf s L) {b : Block}
    (hb : b ∈ Layout.usedBlocks L.blocks) :
    b ∈ L.blocks ∧ s.arenaBase + 12 ≤ b.addr ∧ b.addr + b.size ≤ s.arenaCur ∧
      s.arenaCur < 2 ^ 64 ∧ 4096 ≤ s.arenaBase := by
  have hrow := (Layout.mem_usedBlocks.mp hb).1
  obtain ⟨hlow, hhigh, _, hcur, hpage⟩ := h.room.bounds hrow
  exact ⟨hrow, hlow, hhigh, hcur, hpage⟩

omit [LawfulShape shape] in
theorem RepresentsIn.lists_free (h : RepresentsIn shape binOf s L) (i : ι) :
    ∀ b ∈ L.lists i, b.used = false :=
  fun _ hb => (h.binned.mem_iff.mp hb).2.1

theorem RepresentsIn.payload_ne_zero (h : RepresentsIn shape binOf s L) {b : Block}
    (hb : b ∈ Layout.usedBlocks L.blocks) : b.payload ≠ 0 := by
  obtain ⟨_, hlow, _⟩ := h.used_bounds hb
  unfold Block.payload
  omega

theorem RepresentsIn.apart_of_ne (h : RepresentsIn shape binOf s L) {b c : Block}
    (hb : b ∈ L.blocks) (hc : c ∈ L.blocks) (hne : b ≠ c) :
    b.addr + b.size ≤ c.addr ∨ c.addr + c.size ≤ b.addr :=
  ((h.spread hc).eq_or_apart hc hb).resolve_left hne

/-- Used blocks start at different addresses. -/
theorem RepresentsIn.payload_nodup (h : RepresentsIn shape binOf s L) :
    ((Layout.usedBlocks L.blocks).map Block.payload).Nodup := by
  have hrow : (L.blocks.map Block.addr).Nodup := by
    by_cases hnil : L.blocks = []
    · rw [hnil]
      exact List.nodup_nil
    · exact (h.room.spread hnil).addr_nodup fun b _ => by
        have := b.size_ge
        omega
  have hused : ((Layout.usedBlocks L.blocks).map Block.addr).Nodup :=
    hrow.sublist (List.filter_sublist.map Block.addr)
  have hmap : (Layout.usedBlocks L.blocks).map Block.payload =
      ((Layout.usedBlocks L.blocks).map Block.addr).map (· + 4) := by
    rw [List.map_map]
    rfl
  rw [hmap]
  exact List.Nodup.map (fun a b hab => Nat.add_right_cancel hab) hused

/-- An allocation either leaves the used blocks or adds one. -/
theorem RepresentsIn.allocation_cases (h : RepresentsIn shape binOf s L) {size p : Nat}
    {after : List Block} (heffect : Effect (Layout.usedBlocks L.blocks) 0 size after p) :
    (p = 0 ∧ after.Perm (Layout.usedBlocks L.blocks)) ∨
      ∃ u, p = u.payload ∧ after.Perm (u :: Layout.usedBlocks L.blocks) ∧
        size + 8 ≤ u.size := by
  generalize hL : Layout.usedBlocks L.blocks = before at heffect
  have hnull : ∀ c ∈ before, c.payload ≠ 0 := fun c hc => h.payload_ne_zero (hL ▸ hc)
  cases heffect with
  | keep _ hperm => exact Or.inl ⟨rfl, hperm⟩
  | gain _ hperm hfit => exact Or.inr ⟨_, rfl, hperm, hfit⟩
  | @lose c hcall hperm =>
      exact absurd hcall.1.symm (hnull c (hperm.mem_iff.mpr List.mem_cons_self))
  | @swap c u rest hcall hbefore =>
      exact absurd hcall.1.symm (hnull c (hbefore.mem_iff.mpr List.mem_cons_self))

/-- A block that has just come into use is none of those before. -/
theorem RepresentsIn.gained (h : RepresentsIn shape binOf s L) {before : List Block} {u b : Block}
    (hperm : (Layout.usedBlocks L.blocks).Perm (u :: before)) (hb : b ∈ before) :
    b ∈ Layout.usedBlocks L.blocks ∧ b ≠ u := by
  refine ⟨hperm.mem_iff.mpr (List.mem_cons_of_mem u hb), ?_⟩
  rintro rfl
  have hnodup := h.payload_nodup
  rw [(hperm.map Block.payload).nodup_iff, List.map_cons, List.nodup_cons] at hnodup
  exact hnodup.1 (List.mem_map_of_mem hb)

/-- The header lies one word before the payload. -/
theorem RepresentsIn.header_eq (h : RepresentsIn shape binOf s L) {b : Block} (hb : b ∈ L.blocks) :
    ptrSub b.payload 4 = b.addr := by
  obtain ⟨_, hhigh, _, hcur, _⟩ := h.room.bounds hb
  have hge := b.size_ge
  unfold Block.payload
  rw [ptrSub_of_le (by omega) (by omega), Nat.add_sub_cancel]

theorem Freed.served {c : Block} {s' : Globals ι} (h : Freed binOf s L c s') :
    Served binOf s L c.payload 0 s' 0 := by
  obtain ⟨L', hrep, hperm, hkept⟩ := h
  exact ⟨L', hrep, .lose ⟨rfl, rfl⟩ hperm, hkept⟩

/-- A resize by a new block, a copy into it and a free of the old one; `s₁` is
the state between the copy and the free. -/
theorem Freed.move {c u : Block} {s₁ s' : Globals ι} {L₁ : Layout ι} {size : Nat}
    (hfreed : Freed binOf s₁ L₁ c s') (hrep₁ : Represents binOf s₁ L₁)
    (hc : c ∈ Layout.usedBlocks L.blocks)
    (hperm : (Layout.usedBlocks L₁.blocks).Perm (u :: Layout.usedBlocks L.blocks))
    (hkept : ∀ b ∈ Layout.usedBlocks L.blocks, SameOn s.mem s₁.mem b.addr b.size)
    (hsize : size ≠ 0) (hfit : size + 8 ≤ u.size) :
    Served binOf s L c.payload size s' u.payload := by
  obtain ⟨L', hrep, hlose, hkept'⟩ := hfreed
  refine ⟨L', hrep, Effect.move hc hperm hlose hsize hfit, ?_⟩
  intro b hb hgiven
  obtain ⟨hb₁, _⟩ := hrep₁.gained hperm hb
  exact (hkept b hb).trans (hkept' b hb₁ hgiven)

/-- Writing inside the payload of a used block keeps the heap and the bytes of
every other block. -/
theorem RepresentsIn.write_payload (h : RepresentsIn shape binOf s L) {b : Block}
    (hb : b ∈ Layout.usedBlocks L.blocks) {m : Memory}
    (hsame : SameOutside s.mem m (b.addr + 4) (b.size - 8)) :
    RepresentsIn shape binOf { s with mem := m } L ∧
      ∀ c ∈ L.blocks, c ≠ b → SameOn s.mem m c.addr c.size := by
  obtain ⟨hrow, hused⟩ := Layout.mem_usedBlocks.mp hb
  obtain ⟨pre, post, hblocks⟩ := List.append_of_mem hrow
  have hge := b.size_ge
  have hmid : Tiles Block.addr Block.size b.addr [b] (b.addr + b.size) := ⟨rfl, rfl⟩
  have hmem : b ∈ [b] := List.mem_singleton_self b
  have htagged : ∀ c ∈ [b], c.Tagged m := by
    intro c hc
    rw [List.mem_singleton] at hc
    subst hc
    exact (h.threaded.tagged c hrow).of_payload fun x hx => hsame x (by omega)
  obtain ⟨hheld, hframe⟩ := (h.held hblocks hused).retag hmem (by simp) hmid hmid
    (fun x hx => hsame x (by omega)) htagged
  have hback := (hheld.settle hused).represents
  constructor
  · have hL : L = ⟨pre ++ [b] ++ post, L.lists⟩ := by
      rw [List.append_assoc, List.singleton_append, ← hblocks]
    rw [hL]
    exact hback
  · intro c hc hne
    exact hframe c (mem_row_of_ne (hblocks ▸ hc) hne)

/-- Copying the front of an old block into a block that has just been handed out. -/
theorem RepresentsIn.copy_into {s₁ : Globals ι} {L₁ : Layout ι} {c u : Block} {len : Nat}
    (hrep : RepresentsIn shape binOf s₁ L₁)
    (hperm : (Layout.usedBlocks L₁.blocks).Perm (u :: Layout.usedBlocks L.blocks))
    (hkept : ∀ b ∈ Layout.usedBlocks L.blocks, SameOn s.mem s₁.mem b.addr b.size)
    (hc : c ∈ Layout.usedBlocks L.blocks) (hold : len + 8 ≤ c.size)
    (hnew : len + 8 ≤ u.size) :
    RepresentsIn shape binOf { s₁ with mem := copy s₁.mem u.payload c.payload len } L₁ ∧
      (∀ b ∈ Layout.usedBlocks L.blocks,
        SameOn s.mem (copy s₁.mem u.payload c.payload len) b.addr b.size) ∧
      ∀ i < len, copy s₁.mem u.payload c.payload len (u.payload + i) =
        s.mem (c.payload + i) := by
  have hu : u ∈ Layout.usedBlocks L₁.blocks := hperm.mem_iff.mpr List.mem_cons_self
  have hcopy : SameOutside s₁.mem (copy s₁.mem u.payload c.payload len)
      (u.addr + 4) (u.size - 8) :=
    (copy_sameOutside s₁.mem u.payload c.payload len).mono (Nat.le_refl _)
      (by unfold Block.payload; omega)
  obtain ⟨hrep', hothers⟩ := hrep.write_payload hu hcopy
  refine ⟨hrep', ?_, ?_⟩
  · intro b hb
    obtain ⟨hb₁, hbu⟩ := hrep.gained hperm hb
    exact (hkept b hb).trans (hothers b (Layout.mem_usedBlocks.mp hb₁).1 hbu)
  · intro i hi
    rw [copy_apply s₁.mem hi]
    apply hkept c hc
    · unfold Block.payload
      omega
    · unfold Block.payload
      omega

end Contract

section Calloc

variable {malloc : Globals ι → Nat → Option (Globals ι × Nat)} {s : Globals ι}
  {nmemb size n : Nat}

theorem callocRequest_eq (h : callocRequest nmemb size = some n) :
    n = nmemb * size ∧ n < 2 ^ 64 := by
  unfold callocRequest at h
  split at h
  · simp at h
  · next hzero =>
      split at h
      · simp at h
      · next hover =>
          have hpos : 0 < size := by omega
          have hprod : nmemb * size ≤ 2 ^ 64 - 1 :=
            (Nat.le_div_iff_mul_le hpos).mp (by omega)
          have hn := Option.some.inj h
          omega

theorem callocWith_none (h : callocRequest nmemb size = none) :
    callocWith malloc s nmemb size = some (s, 0) := by
  unfold callocRequest at h
  unfold callocWith
  split at h
  · next hzero => rw [if_pos hzero]
  · next hzero =>
      split at h
      · next hover => rw [if_neg hzero, if_pos hover]
      · simp at h

/-- The product does not wrap, so the fill covers what was asked for. -/
theorem callocWith_some (h : callocRequest nmemb size = some n) :
    callocWith malloc s nmemb size = (malloc s n).bind fun r =>
      if r.2 = 0 then some r
      else some ({ r.1 with mem := fill r.1.mem r.2 n 0 }, r.2) := by
  obtain ⟨hn, hlt⟩ := callocRequest_eq h
  unfold callocRequest at h
  unfold callocWith
  split at h
  · simp at h
  · next hzero =>
      split at h
      · simp at h
      · next hover =>
          rw [if_neg hzero, if_neg hover, ← hn, Nat.mod_eq_of_lt hlt]
          rfl

end Calloc

section MallocEffect

variable [DecidableEq ι] {binOf : Nat → ι} {account : Nat → AllocStat → AllocStat}
  {mmap : Mmap} {s s' : Globals ι} {L L' : Layout ι} {need size p : Nat}

open Layout in
/-- What `my_malloc` brings: nothing, or one used block of `need` bytes, with the
account of it. -/
def Gains (account : Nat → AllocStat → AllocStat) (s : Globals ι) (L : Layout ι) (need : Nat)
    (s' : Globals ι) (p : Nat) (L' : Layout ι) : Prop :=
  (p = 0 ∧ L' = L ∧ ∃ steps, s'.stat = (addScanSteps s steps).stat) ∨
    ∃ (u : Block) (steps n len : Nat), p = u.payload ∧ u.size = need ∧
      (usedBlocks L'.blocks).Perm (u :: usedBlocks L.blocks) ∧
      s'.stat = { account need (addRealBytes (addScanSteps s steps).stat n) with
        freelistLen := len }

open Layout in
omit [DecidableEq ι] in
theorem Gains.effect (h : Gains account s L need s' p L') (hneed : size + 8 ≤ need) :
    Effect (usedBlocks L.blocks) 0 size (usedBlocks L'.blocks) p := by
  rcases h with ⟨rfl, rfl, _⟩ | ⟨u, _, _, _, rfl, hsize, hperm, _⟩
  · exact .keep (Or.inl rfl) (List.Perm.refl _)
  · exact .gain rfl hperm (by omega)

open Layout in
theorem MallocCase.gains (h : MallocCase binOf account mmap s L need s' p L')
    (hfree : ∀ i, ∀ b ∈ L.lists i, b.used = false) : Gains account s L need s' p L' := by
  cases h with
  | @split pre post front back c hge hmod hfit hblocks hlist hfront hstat =>
      have hc : c.used = false := hfree (binOf need) c (by simp [hlist])
      have hperm := usedBlocks_middle pre [c.taken need hge hmod, c.rest need hmod hfit] post
      rw [← usedBlocks_free pre post hc, ← hblocks] at hperm
      exact Or.inr ⟨c.taken need hge hmod, _, _, _, rfl, rfl, hperm, hstat⟩
  | @whole pre post front back c hsize hblocks hlist hfront hstat =>
      have hc : c.used = false := hfree (binOf need) c (by simp [hlist])
      have hperm := usedBlocks_middle pre [c.taken c.size c.size_ge c.size_mod] post
      rw [← usedBlocks_free pre post hc, ← hblocks] at hperm
      exact Or.inr ⟨c.taken c.size c.size_ge c.size_mod, _, _, _, rfl, hsize, hperm, hstat⟩
  | @extend top hge hmod hmiss htop hstat =>
      have hperm := usedBlocks_middle L.blocks
        [Block.fresh (top + padding L) need true hge hmod] []
      rw [List.append_nil, List.append_nil] at hperm
      exact Or.inr ⟨Block.fresh (top + padding L) need true hge hmod, _, _, _, rfl, rfl, hperm,
        hstat⟩
  | fail _ _ hstat => exact Or.inl ⟨rfl, rfl, _, hstat⟩

open Layout in
theorem MallocCase.effect (h : MallocCase binOf account mmap s L need s' p L')
    (hfree : ∀ i, ∀ b ∈ L.lists i, b.used = false) (hneed : size + 8 ≤ need) :
    Effect (usedBlocks L.blocks) 0 size (usedBlocks L'.blocks) p :=
  (h.gains hfree).effect hneed

/-- A call that returns `NULL` has left the abstract heap as it was. -/
theorem MallocCase.eq_of_null (h : MallocCase binOf account mmap s L need s' 0 L') :
    L' = L := by
  generalize hp : 0 = p at h
  cases h with
  | split => omega
  | whole => omega
  | extend => omega
  | fail => rfl

/-- A mapped region stays where it is, and its break does not move back. -/
theorem MallocCase.grows (h : MallocCase binOf account mmap s L need s' p L')
    (hbase : s.arenaBase ≠ 0) :
    s'.arenaBase = s.arenaBase ∧ s.arenaCur ≤ s'.arenaCur := by
  cases h with
  | split _ _ _ _ _ _ _ hsame => exact ⟨hsame.arenaBase, Nat.le_of_eq hsame.arenaCur.symm⟩
  | whole _ _ _ _ _ hsame => exact ⟨hsame.arenaBase, Nat.le_of_eq hsame.arenaCur.symm⟩
  | extend _ _ _ htop _ hcur _ =>
      obtain ⟨_, rfl, hsame⟩ := htop.resolve_right fun hunmapped => hbase hunmapped.1
      exact ⟨hsame, by omega⟩
  | fail _ hwhy _ =>
      obtain ⟨_, _, rfl⟩ := hwhy.resolve_right fun hunmapped => hbase hunmapped.1
      exact ⟨rfl, Nat.le_refl _⟩

/-- A call that is refused on a mapped region has only counted its steps. -/
theorem MallocCase.eq_of_refused (h : MallocCase binOf account mmap s L need s' p L')
    (hp : p = 0) (hbase : s.arenaBase ≠ 0) : ∃ steps, s' = addScanSteps s steps := by
  cases h with
  | split => omega
  | whole => omega
  | extend => omega
  | fail _ hwhy _ =>
      rcases hwhy with ⟨_, _, hsame⟩ | ⟨hunmapped, _⟩
      · exact ⟨_, hsame⟩
      · exact absurd hunmapped hbase

/-- `my_calloc` with a request is `my_malloc` and a fill inside the new payload. -/
theorem callocWith_filled {shape : Globals ι → List Block → Prop} [LawfulShape shape]
    {malloc : Globals ι → Nat → Option (Globals ι × Nat)} {nmemb count : Nat}
    (h : RepresentsIn shape binOf s L) (hrequest : callocRequest nmemb count = some size)
    (heq : malloc s size = some (s', p)) (hrep : RepresentsIn shape binOf s' L')
    (heffect : Effect (Layout.usedBlocks L.blocks) 0 size (Layout.usedBlocks L'.blocks) p)
    (hkept : ∀ b ∈ Layout.usedBlocks L.blocks, SameOn s.mem s'.mem b.addr b.size) :
    ∃ m, callocWith malloc s nmemb count = some ({ s' with mem := m }, p) ∧
      RepresentsIn shape binOf { s' with mem := m } L' ∧
      (∀ b ∈ Layout.usedBlocks L.blocks, SameOn s.mem m b.addr b.size) ∧
      (p ≠ 0 → ∀ i < size, m (p + i) = 0) := by
  rw [callocWith_some hrequest]
  rcases h.allocation_cases heffect with ⟨rfl, _⟩ | ⟨u, rfl, hperm, hfit⟩
  · exact ⟨s'.mem, by simp [heq], hrep, hkept, fun hp => absurd rfl hp⟩
  · have hu : u ∈ Layout.usedBlocks L'.blocks := hperm.mem_iff.mpr List.mem_cons_self
    have hp := hrep.payload_ne_zero hu
    have hfill : SameOutside s'.mem (fill s'.mem u.payload size 0)
        (u.addr + 4) (u.size - 8) :=
      (fill_sameOutside s'.mem u.payload size 0).mono
        (Nat.le_refl _) (by unfold Block.payload; omega)
    obtain ⟨hrep', hothers⟩ := hrep.write_payload hu hfill
    refine ⟨fill s'.mem u.payload size 0, by simp [heq, hp], hrep', ?_, ?_⟩
    · intro b hb
      obtain ⟨hb', hne⟩ := hrep.gained hperm hb
      exact (hkept b hb).trans (hothers b (Layout.mem_usedBlocks.mp hb').1 hne)
    · intro _ i hi
      have hin : u.payload ≤ u.payload + i ∧ u.payload + i < u.payload + size := by omega
      simp only [fill, hin, and_self, ↓reduceIte]

variable (haccount : ∀ n stat, (account n stat).freelistLen = stat.freelistLen)
  (hsound : mmap.Sound)

include haccount hsound

/-- `my_malloc` serves every safe request. -/
theorem mallocWith_served (h : Represents binOf s L) (hsize : size + 40 ≤ 2 ^ 64)
    (hsafe : RequestSafe binOf mmap s size) :
    ∃ s' p, mallocWith binOf account mmap s size = some (s', p) ∧
      Served binOf s L 0 size s' p := by
  obtain ⟨s', p, L', heq, hcase, hrep, hframe⟩ :=
    mallocWith_spec haccount h hsound hsize hsafe
  refine ⟨s', p, heq, L', hrep,
    hcase.effect h.lists_free (chunkNeed_bounds hsize).2.2.1, ?_⟩
  intro b hb _
  obtain ⟨hrow, hused⟩ := Layout.mem_usedBlocks.mp hb
  exact hframe b hrow hused

theorem callocWith_spec {nmemb count : Nat} (h : Represents binOf s L)
    (hrequest : callocRequest nmemb count = some size) (hsize : size + 40 ≤ 2 ^ 64)
    (hsafe : RequestSafe binOf mmap s size) :
    ∃ s₁ p L' m, mallocWith binOf account mmap s size = some (s₁, p) ∧
      callocWith (mallocWith binOf account mmap) s nmemb count =
        some ({ s₁ with mem := m }, p) ∧
      MallocCase binOf account mmap s L (chunkNeed size) s₁ p L' ∧ Represents binOf s₁ L' ∧
      Represents binOf { s₁ with mem := m } L' ∧
      (∀ b ∈ Layout.usedBlocks L.blocks, SameOn s.mem m b.addr b.size) ∧
      (p ≠ 0 → ∀ i < size, m (p + i) = 0) := by
  obtain ⟨s₁, p, L', heq, hcase, hrep, hframe⟩ :=
    mallocWith_spec haccount h hsound hsize hsafe
  obtain ⟨m, hcalloc, hrep', hkept, hzeroed⟩ := callocWith_filled h hrequest heq hrep
    (hcase.effect h.lists_free (chunkNeed_bounds hsize).2.2.1) fun b hb =>
      hframe b (Layout.mem_usedBlocks.mp hb).1 (Layout.mem_usedBlocks.mp hb).2
  exact ⟨s₁, p, L', m, heq, hcalloc, hcase, hrep, hrep', hkept, hzeroed⟩

/-- `my_calloc` serves every safe request with a block that starts with zeros. -/
theorem callocWith_served {nmemb count : Nat} (h : Represents binOf s L)
    (hsafe : ∀ n, callocRequest nmemb count = some n → n + 40 ≤ 2 ^ 64 ∧
      RequestSafe binOf mmap s n) :
    ∃ s' p, callocWith (mallocWith binOf account mmap) s nmemb count = some (s', p) ∧
      Served binOf s L 0 (nmemb * count) s' p ∧
      (p ≠ 0 → ∀ i < nmemb * count, s'.mem (p + i) = 0) := by
  cases hrequest : callocRequest nmemb count with
  | none =>
      refine ⟨s, 0, callocWith_none hrequest, ⟨L, h, ?_, fun b _ _ => SameOn.refl _ _ _⟩,
        fun hp => absurd rfl hp⟩
      exact .keep (Or.inl rfl) (List.Perm.refl _)
  | some n =>
      obtain ⟨hsize, hsafe'⟩ := hsafe n hrequest
      obtain ⟨s₁, p, L', m, _, heq, hcase, _, hrep, hkept, hzeroed⟩ :=
        callocWith_spec haccount hsound h hrequest hsize hsafe'
      obtain ⟨rfl, _⟩ := callocRequest_eq hrequest
      refine ⟨_, p, heq, ⟨L', hrep, ?_, fun b hb _ => hkept b hb⟩, hzeroed⟩
      exact hcase.effect h.lists_free (chunkNeed_bounds hsize).2.2.1

end MallocEffect

end AllocSitter
