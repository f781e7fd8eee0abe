/-
A call of `segregated_allocator.c` in its parts: the request that it makes, the bytes that it
writes to a payload, and the block that it frees.  Blocks are cut and never merged, so that a
pointer which was returned once heads a block for ever, and may be freed twice.
-/
import AllocSitter.Accounting

namespace AllocSitter

namespace Segregated

open ByteMemory LinkedChain Tiling

/-- What the request of a call does, if it makes one. -/
inductive Requests (mmap : Mmap) (s : State) (L : Layout Bin) :
    Option Nat → State → Nat → Layout Bin → Prop
  | skip : Requests mmap s L none s 0 L
  | ask {n p : Nat} {s₁ : State} {L₁ : Layout Bin}
      (hcase : MallocCase sizeToBin liveAdd mmap s L (chunkNeed n) s₁ p L₁) :
      Requests mmap s L (some n) s₁ p L₁

/-- What the end of a call does: nothing, or it frees a block. -/
inductive Frees (s : State) (L : Layout Bin) : State → Layout Bin → Prop
  | skip : Frees s L s L
  | block {c : Block} {pre post : List Block} (hblocks : L.blocks = pre ++ c :: post)
      (hused : c.used = true) :
      Frees s L (myFree s c.payload)
        ⟨pre ++ [c.release] ++ post, pushBlock sizeToBin L.lists c.release⟩

/-- A call that returns `q`, in its parts.  Between the two, `my_calloc` and `my_realloc`
write to the new payload, and the client to its blocks. -/
structure Parts (mmap : Mmap) (s : State) (L : Layout Bin) (request : Option Nat)
    (s' : State) (q : Nat) (L' : Layout Bin) : Prop where
  parts : ∃ s₁ m L₁, Requests mmap s L request s₁ q L₁ ∧
    Frees { s₁ with mem := m } L₁ s' L'
  represents : Represents sizeToBin s' L'

variable {mmap : Mmap} {w w' : Client Bin} {s s' : State} {L L' : Layout Bin} {call : Call}
  {q : Nat}

theorem frees_owned (h : Represents sizeToBin s L) {ptr : Nat} (howned : L.Owned ptr) :
    ∃ L', Frees s L (myFree s ptr) L' ∧ Represents sizeToBin (myFree s ptr) L' := by
  rcases howned with rfl | ⟨c, hc, rfl⟩
  · rw [myFree_null]
    exact ⟨L, .skip, h⟩
  · obtain ⟨hrow, hused⟩ := Layout.mem_usedBlocks.mp hc
    obtain ⟨pre, post, hblocks⟩ := List.append_of_mem hrow
    exact ⟨_, .block hblocks hused, (myFree_spec h hblocks hused).1⟩

theorem parts_malloc (hsound : mmap.Sound) (h : Represents sizeToBin s L) {n : Nat}
    (hn : n + 40 ≤ 2 ^ 64) (hsafe : RequestSafe sizeToBin mmap s n)
    (heq : myMalloc mmap s n = some (s', q)) : ∃ L', Parts mmap s L (some n) s' q L' := by
  obtain ⟨s₁, p, L₁, hmalloc, hcase, hrep, _⟩ :=
    mallocWith_spec liveAdd_freelistLen h hsound hn hsafe
  obtain ⟨rfl, rfl⟩ := Prod.mk.inj (Option.some.inj (hmalloc.symm.trans heq))
  exact ⟨L₁, ⟨s₁, s₁.mem, L₁, .ask hcase, .skip⟩, hrep⟩

theorem parts_calloc (hsound : mmap.Sound) (h : Represents sizeToBin s L) {nmemb size : Nat}
    (hsafe : Safe mmap s (.calloc nmemb size))
    (heq : myCalloc mmap s nmemb size = some (s', q)) :
    ∃ L', Parts mmap s L (callocRequest nmemb size) s' q L' := by
  cases hrequest : callocRequest nmemb size with
  | none =>
      obtain ⟨rfl, rfl⟩ := Prod.mk.inj
        (Option.some.inj ((callocWith_none hrequest).symm.trans heq))
      exact ⟨L, ⟨s, s.mem, L, .skip, .skip⟩, h⟩
  | some n =>
      obtain ⟨hn, hsafe'⟩ := hsafe n hrequest
      obtain ⟨s₁, p, L₁, m, _, hcalloc, hcase, _, hrep, _⟩ :=
        callocWith_spec liveAdd_freelistLen hsound h hrequest hn hsafe'
      obtain ⟨rfl, rfl⟩ := Prod.mk.inj (Option.some.inj (hcalloc.symm.trans heq))
      exact ⟨L₁, ⟨s₁, m, L₁, .ask hcase, .skip⟩, hrep⟩

theorem parts_realloc (hsound : mmap.Sound) (h : Represents sizeToBin s L) {ptr size : Nat}
    (howned : L.Owned ptr) (hsafe : Safe mmap s (.realloc ptr size))
    (heq : myRealloc mmap s ptr size = some (s', q)) :
    ∃ L', Parts mmap s L (request (.realloc ptr size)) s' q L' := by
  by_cases hnull : ptr = 0
  · have hrequest : request (.realloc ptr size) = some size := by simp [request, hnull]
    obtain ⟨hn, hsafe'⟩ := hsafe size hrequest
    rw [myRealloc, if_pos hnull] at heq
    rw [hrequest]
    exact parts_malloc hsound h hn hsafe' heq
  · by_cases hzero : size = 0
    · rw [myRealloc, if_neg hnull, if_pos hzero] at heq
      obtain ⟨rfl, rfl⟩ := Prod.mk.inj (Option.some.inj heq)
      obtain ⟨L', hfrees, hrep⟩ := frees_owned h howned
      have hrequest : request (.realloc ptr size) = none := by simp [request, hnull, hzero]
      rw [hrequest]
      exact ⟨L', ⟨s, s.mem, L, .skip, hfrees⟩, hrep⟩
    · obtain ⟨c, hc, rfl⟩ := howned.resolve_left hnull
      have hrequest : request (.realloc c.payload size) = some size := by simp [request, hzero]
      obtain ⟨hn, hsafe'⟩ := hsafe size hrequest
      rw [hrequest]
      obtain ⟨s₁, p, L₁, _, hcase, hrep₁, _, hresult⟩ :=
        myRealloc_spec hsound h hc hzero hn hsafe'
      rcases hresult with ⟨rfl, hfail⟩ | ⟨s₂, hcopy, _, hrep₂, hc₁, _, _, hmove⟩
      · obtain ⟨rfl, rfl⟩ := Prod.mk.inj (Option.some.inj (hfail.symm.trans heq))
        exact ⟨L₁, ⟨s₁, s₁.mem, L₁, .ask hcase, .skip⟩, hrep₁⟩
      · obtain ⟨rfl, rfl⟩ := Prod.mk.inj (Option.some.inj (hmove.symm.trans heq))
        obtain ⟨L', hfrees, hrep⟩ := frees_owned hrep₂ (Or.inr ⟨c, hc₁, rfl⟩)
        rw [hcopy] at hfrees hrep ⊢
        exact ⟨L', ⟨s₁, _, L₁, .ask hcase, hfrees⟩, hrep⟩

/-- Every admitted call in its parts. -/
theorem exec_parts (hsound : mmap.Sound) (h : Represents sizeToBin w.heap L)
    (howns : Owns w.live (Layout.usedBlocks L.blocks)) (hadmits : Admits mmap w call)
    (hcall : call ≠ .statReset) (hexec : w.exec (api mmap) call = some (w', q)) :
    ∃ L', Parts mmap w.heap L (request call) w'.heap q L' := by
  obtain ⟨hallows, hsafe⟩ := hadmits.safe
  cases call with
  | malloc size =>
      obtain ⟨hn, hsafe'⟩ := hsafe size rfl
      exact parts_malloc hsound h hn hsafe' (Client.exec_malloc hexec).1
  | calloc nmemb size => exact parts_calloc hsound h hsafe (Client.exec_calloc hexec).1
  | free ptr =>
      obtain ⟨hfree, _, rfl⟩ := Client.exec_free hexec
      obtain ⟨L', hfrees, hrep⟩ := frees_owned h (howns.owned hallows)
      rw [← Option.some.inj hfree]
      exact ⟨L', ⟨w.heap, w.heap.mem, L, .skip, hfrees⟩, hrep⟩
  | realloc ptr size =>
      exact parts_realloc hsound h (howns.owned hallows.1) hsafe (Client.exec_realloc hexec).1
  | write addr byte =>
      obtain ⟨rfl, rfl⟩ := Prod.mk.inj (Option.some.inj hexec)
      exact ⟨L, ⟨w.heap, _, L, .skip, .skip⟩, h.client_write howns hallows⟩
  | statReset => exact absurd rfl hcall

section Starts

/-- Every block of the one row starts a block of the other, which is no larger. -/
def KeepsStarts (L L' : Layout Bin) : Prop :=
  ∀ b ∈ L.blocks, ∃ b' ∈ L'.blocks, b'.addr = b.addr ∧ b'.size ≤ b.size

theorem KeepsStarts.trans {L'' : Layout Bin} (h : KeepsStarts L L') (h' : KeepsStarts L' L'') :
    KeepsStarts L L'' := by
  intro b hb
  obtain ⟨b', hb', haddr, hsize⟩ := h b hb
  obtain ⟨b'', hb'', haddr', hsize'⟩ := h' b' hb'
  exact ⟨b'', hb'', haddr'.trans haddr, hsize'.trans hsize⟩

/-- One block is exchanged for blocks of which the first starts where it did. -/
theorem keepsStarts_exchange {pre post new : List Block} {c u : Block}
    (hblocks : L.blocks = pre ++ c :: post) (hblocks' : L'.blocks = pre ++ new ++ post)
    (hu : u ∈ new) (haddr : u.addr = c.addr) (hsize : u.size ≤ c.size) : KeepsStarts L L' := by
  intro b hb
  rw [hblocks, List.mem_append, List.mem_cons] at hb
  rw [hblocks']
  rcases hb with hb | rfl | hb
  · exact ⟨b, by simp [hb], rfl, Nat.le_refl _⟩
  · exact ⟨u, by simp [hu], haddr, hsize⟩
  · exact ⟨b, by simp [hb], rfl, Nat.le_refl _⟩

/-- A request cuts a block or adds one, and what it returns heads a block. -/
theorem Requests.keepsStarts {n : Option Nat} (h : Requests mmap s L n s' q L') :
    KeepsStarts L L' ∧ (q ≠ 0 → ∃ b ∈ L'.blocks, b.payload = q) := by
  cases h with
  | skip => exact ⟨fun b hb => ⟨b, hb, rfl, Nat.le_refl _⟩, fun hq => absurd rfl hq⟩
  | ask hcase =>
      cases hcase with
      | split hge hmod hfit hblocks =>
          exact ⟨keepsStarts_exchange hblocks rfl List.mem_cons_self rfl
            (Nat.le_trans (Nat.le_add_right _ 16) hfit),
            fun _ => ⟨Block.taken _ _ hge hmod, by simp, rfl⟩⟩
      | whole hsize hblocks =>
          exact ⟨keepsStarts_exchange hblocks rfl List.mem_cons_self rfl (Nat.le_refl _),
            fun _ => ⟨_, List.mem_append_left _ (List.mem_append_right _ List.mem_cons_self), rfl⟩⟩
      | extend hge hmod =>
          exact ⟨fun b hb => ⟨b, by simp [hb], rfl, Nat.le_refl _⟩,
            fun _ => ⟨Block.fresh _ _ true hge hmod, by simp, rfl⟩⟩
      | fail => exact ⟨fun b hb => ⟨b, hb, rfl, Nat.le_refl _⟩, fun hq => absurd rfl hq⟩

theorem Frees.keepsStarts (h : Frees s L s' L') : KeepsStarts L L' := by
  cases h with
  | skip => exact fun b hb => ⟨b, hb, rfl, Nat.le_refl _⟩
  | block hblocks _ =>
      exact keepsStarts_exchange hblocks rfl List.mem_cons_self rfl (Nat.le_refl _)

theorem Parts.keepsStarts {n : Option Nat} (h : Parts mmap s L n s' q L') :
    KeepsStarts L L' ∧ (q ≠ 0 → ∃ b ∈ L'.blocks, b.payload = q) := by
  obtain ⟨⟨s₁, m, L₁, hrequests, hfrees⟩, _⟩ := h
  obtain ⟨hstarts, hreturned⟩ := hrequests.keepsStarts
  refine ⟨hstarts.trans hfrees.keepsStarts, fun hq => ?_⟩
  obtain ⟨b, hb, rfl⟩ := hreturned hq
  obtain ⟨b', hb', haddr, _⟩ := hfrees.keepsStarts b hb
  exact ⟨b', hb', by rw [Block.payload, haddr]; rfl⟩

end Starts

/-- A client that keeps every pointer that it was ever given. -/
structure Hoarder where
  client : Client Bin
  returned : List Nat

namespace Hoarder

def initial : Hoarder := ⟨Client.initial Bin, []⟩

def step (mmap : Mmap) (o : Hoarder) (call : Call) : Option Hoarder :=
  (o.client.exec (api mmap) call).map fun result =>
    ⟨result.1, if result.2 = 0 then o.returned else result.2 :: o.returned⟩

/-- A pointer that was returned is freed, for the first time or again. -/
def Refrees (o : Hoarder) : Call → Prop
  | .free ptr => ptr ∈ o.returned
  | .realloc ptr size => ptr ∈ o.returned ∧ size = 0
  | _ => False

instance (o : Hoarder) : ∀ call, Decidable (o.Refrees call)
  | .free ptr => inferInstanceAs (Decidable (ptr ∈ o.returned))
  | .realloc ptr size => inferInstanceAs (Decidable (ptr ∈ o.returned ∧ size = 0))
  | .malloc _ => .isFalse id
  | .calloc _ _ => .isFalse id
  | .write _ _ => .isFalse id
  | .statReset => .isFalse id

/-- Calls as they are admitted, and pointers freed any number of times. -/
def Admits (mmap : Mmap) (o : Hoarder) (call : Call) : Prop :=
  Segregated.Admits mmap o.client call ∨ o.Refrees call

instance (mmap : Mmap) (o : Hoarder) (call : Call) : Decidable (o.Admits mmap call) :=
  inferInstanceAs (Decidable (_ ∨ _))

/-- What all runs keep: the heap is as it should be, and each pointer heads a block. -/
structure Inv (o : Hoarder) : Prop where
  client : AllocSitter.Inv sizeToBin o.client
  heads : ∀ L, Represents sizeToBin o.client.heap L →
    ∀ ptr ∈ o.returned, ∃ b ∈ L.blocks, b.payload = ptr

end Hoarder

section Guard

variable {o o' : Hoarder} {ptr : Nat}

/-- Where the flag of a block is clear, `my_free` returns at once. -/
theorem myFree_of_free (h : Represents sizeToBin s L) {b : Block} (hb : b ∈ L.blocks)
    (hfree : b.used = false) : myFree s b.payload = s := by
  have hclear : load s.mem b.addr 4 % 2 = 0 := (h.threaded.tagged b hb).clear_iff.mpr hfree
  unfold myFree
  split
  · rfl
  · rw [h.header_eq hb, if_pos hclear]

/-- A pointer that was returned and is not live heads a free block. -/
theorem Hoarder.Inv.free_again (hinv : o.Inv) (hptr : ptr ∈ o.returned)
    (hgone : ¬ o.client.Holds ptr) : myFree o.client.heap ptr = o.client.heap := by
  obtain ⟨L, h, howns⟩ := hinv.client
  obtain ⟨b, hb, rfl⟩ := hinv.heads L h ptr hptr
  apply myFree_of_free h hb
  cases hused : b.used with
  | false => rfl
  | true => exact absurd (howns.mem_of_block (Layout.mem_usedBlocks.mpr ⟨hb, hused⟩)) hgone

/-- An admitted call keeps the heads of blocks. -/
theorem Hoarder.Inv.next (hsound : mmap.Sound) (hinv : o.Inv)
    (hadmits : Segregated.Admits mmap o.client call) (hstep : o.step mmap call = some o') :
    o'.Inv := by
  obtain ⟨⟨w', q⟩, hexec, rfl⟩ := Option.map_eq_some_iff.mp hstep
  obtain ⟨hallows, hsafe⟩ := hadmits.safe
  have hinv' := (contract hsound).keeps hinv.client hallows hsafe (Client.step_of_exec hexec)
  refine ⟨hinv', fun L' h' ptr hptr => ?_⟩
  obtain ⟨L, h, howns⟩ := hinv.client
  -- The counters are no part of the row.
  have hkeeps : ∃ L₁, Represents sizeToBin w'.heap L₁ ∧ KeepsStarts L L₁ ∧
      (q ≠ 0 → ∃ b ∈ L₁.blocks, b.payload = q) := by
    by_cases hreset : call = .statReset
    · subst hreset
      obtain ⟨rfl, rfl⟩ := Prod.mk.inj (Option.some.inj hexec)
      exact ⟨L, ((contract hsound).statReset h).1, fun b hb => ⟨b, hb, rfl, Nat.le_refl _⟩,
        fun hq => absurd rfl hq⟩
    · obtain ⟨L₁, hparts⟩ := exec_parts hsound h howns hadmits hreset hexec
      exact ⟨L₁, hparts.represents, hparts.keepsStarts⟩
  obtain ⟨L₁, h₁, hstarts, hreturned⟩ := hkeeps
  rw [h'.blocks_unique h₁]
  have hcases : ptr = q ∧ q ≠ 0 ∨ ptr ∈ o.returned := by
    dsimp only at hptr
    split at hptr
    · exact Or.inr hptr
    · next hq =>
        rcases List.mem_cons.mp hptr with rfl | hptr
        · exact Or.inl ⟨rfl, hq⟩
        · exact Or.inr hptr
  rcases hcases with ⟨rfl, hq⟩ | hptr
  · exact hreturned hq
  · obtain ⟨b, hb, rfl⟩ := hinv.heads L h ptr hptr
    obtain ⟨b', hb', haddr, _⟩ := hstarts b hb
    exact ⟨b', hb', by rw [Block.payload, haddr]; rfl⟩

/-- A pointer that is given up already: nothing happens. -/
theorem Hoarder.Inv.again (hinv : o.Inv) (hrefrees : o.Refrees call)
    (hgone : ∀ ptr, call = .free ptr ∨ call = .realloc ptr 0 → ¬ o.client.Holds ptr) :
    o.step mmap call = some o := by
  have hdrop : ∀ ptr, ¬ o.client.Holds ptr → Client.drop o.client.live ptr = o.client.live := by
    intro ptr hgone
    apply List.filter_eq_self.mpr
    intro entry hentry
    have hne : entry.1 ≠ ptr := fun heq => hgone ⟨entry.2, heq ▸ hentry⟩
    simpa using hne
  have hnull : 0 ∉ o.returned := by
    intro hzero
    obtain ⟨L, h, _⟩ := hinv.client
    obtain ⟨b, _, hb⟩ := hinv.heads L h 0 hzero
    simp [Block.payload] at hb
  cases call with
  | free ptr =>
      have hptr := hgone ptr (Or.inl rfl)
      simp [Hoarder.step, Client.exec, api, hinv.free_again hrefrees hptr, hdrop ptr hptr]
  | realloc ptr size =>
      obtain ⟨hmem, rfl⟩ := hrefrees
      have hptr := hgone ptr (Or.inr rfl)
      have hne : ptr ≠ 0 := fun heq => hnull (heq ▸ hmem)
      simp [Hoarder.step, Client.exec, api, myRealloc, hne, hinv.free_again hmem hptr,
        hdrop ptr hptr, Client.hold]
  | malloc size => exact hrefrees.elim
  | calloc nmemb size => exact hrefrees.elim
  | write addr byte => exact hrefrees.elim
  | statReset => exact hrefrees.elim

/-- The first free of a pointer is an admitted call. -/
theorem Hoarder.Inv.first (hinv : o.Inv) (hheld : o.client.Holds ptr)
    (hcall : call = .free ptr ∨ call = .realloc ptr 0) :
    Segregated.Admits mmap o.client call := by
  have hne : ptr ≠ 0 := fun heq => hinv.client.null_not_held (heq ▸ hheld)
  rcases hcall with rfl | rfl
  · exact ⟨⟨Or.inr hheld, trivial⟩, fun n hn => by simp [request] at hn⟩
  · exact ⟨⟨⟨Or.inr hheld, Nat.two_pow_pos 64⟩, Nat.zero_le _⟩,
      fun n hn => by simp [request, hne] at hn⟩

theorem Hoarder.Inv.step (hsound : mmap.Sound) (hinv : o.Inv) (hadmits : o.Admits mmap call)
    (hstep : o.step mmap call = some o') : o'.Inv := by
  rcases hadmits with hadmits | hrefrees
  · exact hinv.next hsound hadmits hstep
  · by_cases hheld : ∃ ptr, (call = .free ptr ∨ call = .realloc ptr 0) ∧ o.client.Holds ptr
    · obtain ⟨ptr, hcall, hheld⟩ := hheld
      exact hinv.next hsound (hinv.first hheld hcall) hstep
    · have hgone : ∀ ptr, call = .free ptr ∨ call = .realloc ptr 0 → ¬ o.client.Holds ptr :=
        fun ptr hcall hptr => hheld ⟨ptr, hcall, hptr⟩
      rw [hinv.again hrefrees hgone] at hstep
      exact Option.some.inj hstep ▸ hinv

theorem Hoarder.Inv.run (hsound : mmap.Sound)
    (hreach : Runs.Reach (Hoarder.step mmap) (Hoarder.Admits mmap) Hoarder.initial o) :
    o.Inv := by
  refine hreach.invariant ⟨inv_initial sizeToBin, ?_⟩
    fun before call after hinv hadmits hstep => hinv.step hsound hadmits hstep
  intro L _ ptr hptr
  exact absurd hptr List.not_mem_nil

/-- `my_free` of a live block clears its flag. -/
theorem myFree_ne (h : Represents sizeToBin s L) {c : Block}
    (hc : c ∈ Layout.usedBlocks L.blocks) : myFree s c.payload ≠ s := by
  intro heq
  obtain ⟨hrow, hused⟩ := Layout.mem_usedBlocks.mp hc
  obtain ⟨pre, post, hblocks⟩ := List.append_of_mem hrow
  have hrep := (myFree_spec h hblocks hused).1
  rw [heq] at hrep
  have hsame := h.blocks_unique hrep
  rw [hblocks, List.append_assoc, List.append_cancel_left_eq, List.singleton_append,
    List.cons.injEq] at hsame
  have hclear := congrArg Block.used hsame.1
  rw [hused] at hclear
  exact absurd hclear (by simp [Block.release])

/-- The guard against double frees: in every run of admitted calls in which pointers may also
be freed again, the heap stays as it should be, every pointer that was ever returned still
heads a block of it, and a free of one changes nothing exactly when it is not live. -/
theorem repeated_free_ignored (hsound : mmap.Sound)
    (hreach : Runs.Reach (Hoarder.step mmap) (Hoarder.Admits mmap) Hoarder.initial o) :
    AllocSitter.Inv sizeToBin o.client ∧
      ∀ ptr ∈ o.returned,
        (∃ headers, Headers o.client.heap headers ∧ ptrSub ptr 4 ∈ headers) ∧
        (myFree o.client.heap ptr = o.client.heap ↔ ¬ o.client.Holds ptr) := by
  have hinv := Hoarder.Inv.run hsound hreach
  refine ⟨hinv.client, fun ptr hptr => ⟨?_, ?_, hinv.free_again hptr⟩⟩
  · obtain ⟨L, h, _⟩ := hinv.client
    obtain ⟨b, hb, rfl⟩ := hinv.heads L h ptr hptr
    refine ⟨_, h.headers, ?_⟩
    rw [h.header_eq hb]
    exact List.mem_map_of_mem hb
  · rintro heq ⟨n, hmem⟩
    obtain ⟨L, h, howns⟩ := hinv.client
    obtain ⟨b, hb, rfl, _⟩ := howns.block_of_mem hmem
    exact myFree_ne h hb heq

/-- Two blocks are freed twice; the first of them comes back cut in between. -/
theorem repeated_free_ignored_example :
    ∃ o, Runs.run (Hoarder.step lowRegion) Hoarder.initial
        [.malloc 56, .malloc 20, .free 4112, .free 4112, .free 4176, .malloc 40, .free 4176] =
          some o ∧
      o.returned = [4112, 4176, 4112] ∧ ¬ o.client.Holds 4176 ∧
      myFree o.client.heap 4176 = o.client.heap := by
  have hfacts : (Runs.run (Hoarder.step lowRegion) Hoarder.initial
      [.malloc 56, .malloc 20, .free 4112, .free 4112, .free 4176, .malloc 40, .free 4176]).map
        (fun o => (o.returned, decide (o.client.Holds 4176))) =
      some ([4112, 4176, 4112], false) := by decide +kernel
  obtain ⟨o, hrun, ho⟩ := Option.map_eq_some_iff.mp hfacts
  obtain ⟨hreturned, hgone⟩ := Prod.mk.inj ho
  have hgone' : ¬ o.client.Holds 4176 := of_decide_eq_false hgone
  obtain ⟨_, hguard⟩ :=
    repeated_free_ignored lowRegion_sound (.of_run .start (by decide +kernel) hrun)
  obtain ⟨_, hfree⟩ := hguard 4176 (by rw [hreturned]; decide)
  exact ⟨o, hrun, hreturned, hgone', hfree.mpr hgone'⟩

end Guard

end Segregated

end AllocSitter
