/-
Where `segregated_allocator.c` writes.  In a run without a wrapped sum every store of a call
goes to its region, so that nothing depends on what the program does at a store to an
address that is not mapped.
-/
import AllocSitter.LifoReuse

namespace AllocSitter

open ByteMemory LinkedChain Tiling

variable {ι : Type}

/-- From `s` to `s'` no byte outside the region has changed, and a region stays where it is. -/
structure Mapped (s s' : Globals ι) : Prop where
  base : s.arenaBase ≠ 0 → s'.arenaBase = s.arenaBase
  idle : s'.arenaBase = 0 → s'.mem = s.mem
  outside : s'.arenaBase ≠ 0 → SameOutside s.mem s'.mem s'.arenaBase arenaSize

namespace Mapped

variable {s s' s'' : Globals ι}

theorem of_mem (hbase : s'.arenaBase = s.arenaBase) (hmem : s'.mem = s.mem) : Mapped s s' := by
  refine ⟨fun _ => hbase, fun _ => hmem, fun _ => ?_⟩
  rw [hmem]
  exact fun _ _ => rfl

theorem of_outside (hmapped : s.arenaBase ≠ 0) (hbase : s'.arenaBase = s.arenaBase)
    (hmem : SameOutside s.mem s'.mem s.arenaBase arenaSize) : Mapped s s' :=
  ⟨fun _ => hbase, fun hzero => absurd (hbase.symm.trans hzero) hmapped, fun _ => hbase ▸ hmem⟩

theorem trans (h : Mapped s s') (h' : Mapped s' s'') : Mapped s s'' := by
  by_cases hbase : s'.arenaBase = 0
  · -- There is no region yet, so nothing has been written.
    have hmem := h.idle hbase
    refine ⟨fun hmapped => absurd ((h.base hmapped).symm.trans hbase) hmapped, fun hzero => ?_,
      fun hmapped => ?_⟩
    · exact (h'.idle hzero).trans hmem
    · rw [← hmem]
      exact h'.outside hmapped
  · have hsame := h'.base hbase
    refine ⟨fun hmapped => hsame.trans (h.base hmapped),
      fun hzero => absurd (hsame.symm.trans hzero) hbase, fun _ => ?_⟩
    have hfirst := h.outside hbase
    have hrest := h'.outside (hsame ▸ hbase)
    rw [hsame] at hrest ⊢
    exact hfirst.trans hrest

end Mapped

/-- A block of the row lies in the region. -/
theorem ArenaRoom.inside {s : Globals ι} {blocks : List Block} (h : ArenaRoom s blocks) {b : Block}
    (hb : b ∈ blocks) : s.arenaBase ≠ 0 ∧ s.arenaBase ≤ b.addr ∧
      b.addr + b.size ≤ s.arenaBase + arenaSize ∧ s.arenaBase + arenaSize < 2 ^ 64 := by
  have hbase := h.base_ne_zero (List.ne_nil_of_mem hb)
  obtain ⟨_, _, hlt, hend⟩ := h.region hbase
  obtain ⟨_, htop⟩ := h.top hbase
  obtain ⟨hlow, hhigh, _⟩ := h.bounds hb
  exact ⟨hbase, by omega, by omega, hlt⟩

/-- A store to a block. -/
theorem ArenaRoom.mapped {s s' : Globals ι} {blocks : List Block} (h : ArenaRoom s blocks)
    {b : Block} (hb : b ∈ blocks) (hbase : s'.arenaBase = s.arenaBase)
    (hmem : SameOutside s.mem s'.mem b.addr b.size) : Mapped s s' := by
  obtain ⟨hmapped, hlow, hhigh, _⟩ := h.inside hb
  exact .of_outside hmapped hbase (hmem.mono hlow hhigh)

section Request

variable [DecidableEq ι] {binOf : Nat → ι} {account : Nat → AllocStat → AllocStat} {mmap : Mmap}
  {s s' : Globals ι} {L : Layout ι} {need p : Nat}

omit [DecidableEq ι] in
/-- Writing the link in a block. -/
theorem link_outside {m : Memory} {header value lo len : Nat} (hlow : lo ≤ header)
    (hhigh : header + 12 ≤ lo + len) (hlt : lo + len < 2 ^ 64) :
    SameOutside m (store m (ptrAdd header 4) 8 value) lo len := by
  rw [ptrAdd_of_lt (by omega)]
  exact (store_sameOutside _ _ _ _).mono (by omega) (by omega)

/-- Taking a block off its list: the link that is written is the head, or lies in a block. -/
theorem setLink_outside (bin : ι) (value : Nat) {lo len : Nat} {nodes : List Nat}
    (hlt : lo + len < 2 ^ 64) (hnodes : ∀ a ∈ nodes, lo ≤ a ∧ a + 12 ≤ lo + len) :
    SameOutside s.mem (setLink s bin (Link.advance .head nodes) value).mem lo len := by
  rcases List.eq_nil_or_concat nodes with rfl | ⟨front, a, rfl⟩
  · exact fun _ _ => rfl
  · obtain ⟨hlow, hhigh⟩ := hnodes a (by simp)
    rw [List.concat_eq_append, Link.advance_concat]
    change SameOutside s.mem (store s.mem (ptrAdd a 4) 8 value) lo len
    exact link_outside hlow hhigh hlt

variable {front back : List Block} {c : Block} {bin : ι}

/-- The places of the list in front of a block. -/
theorem RepresentsIn.front_inside (h : Pooled binOf s L)
    (hlist : L.lists bin = front ++ c :: back) :
    ∀ a ∈ front.map Block.addr, s.arenaBase ≤ a ∧ a + 12 ≤ s.arenaBase + arenaSize := by
  intro a ha
  obtain ⟨b, hb, rfl⟩ := List.mem_map.mp ha
  have hrow := (h.binned.mem_iff.mp (show b ∈ L.lists bin by simp [hlist, hb])).1
  obtain ⟨_, hlow, hhigh, _⟩ := h.room.inside hrow
  have hge := b.size_ge
  exact ⟨hlow, by omega⟩

variable (account) in
theorem splitBlock_mapped (h : Pooled binOf s L) (hlist : L.lists bin = front ++ c :: back)
    (hge : 16 ≤ need) (hmod : need % 16 = 0) (hfit : need + 16 ≤ c.size) :
    Mapped s (splitBlock binOf account s bin (Link.advance .head (front.map Block.addr))
      c.addr c.size need).1 := by
  have hc := (h.binned.mem_iff.mp (show c ∈ L.lists bin by simp [hlist])).1
  obtain ⟨hbase, hlow, hhigh, hlt⟩ := h.room.inside hc
  obtain ⟨_, _, hsize, _⟩ := h.room.bounds hc
  have haddn : ptrAdd c.addr need = c.addr + need := ptrAdd_of_lt (by omega)
  have hsub : ptrSub c.size need = c.size - need := ptrSub_of_le (by omega) (by omega)
  have hor : need ||| 1 = need + 1 := or_one_of_even (by omega)
  have htags := (cutTags_spec s.mem hge hmod hfit (by omega) hsize).2.2.1.mono hlow hhigh
  simp only [splitBlock, haddn, hsub, hor]
  refine .of_outside hbase ?_ (htags.trans ((setLink_outside bin _ hlt
    (h.front_inside hlist)).trans (link_outside (by omega) (by omega) hlt)))
  exact (setLink_sameArena _ bin _ _).arenaBase

variable (account) in
theorem wholeBlock_mapped (h : Pooled binOf s L) (hlist : L.lists bin = front ++ c :: back) :
    Mapped s (wholeBlock account s bin (Link.advance .head (front.map Block.addr))
      c.addr c.size).1 := by
  have hc := (h.binned.mem_iff.mp (show c ∈ L.lists bin by simp [hlist])).1
  obtain ⟨hbase, hlow, hhigh, hlt⟩ := h.room.inside hc
  obtain ⟨_, _, hsize, _⟩ := h.room.bounds hc
  have hmod := c.size_mod
  have hor : c.size ||| 1 = c.size + 1 := or_one_of_even (by omega)
  have htags : SameOutside s.mem (setTags s.mem c.addr (c.size + 1)) c.addr c.size :=
    setTags_sameOutside (b := c.taken c.size c.size_ge c.size_mod) s.mem
      (show c.addr + c.size < 2 ^ 64 by omega) hsize
  simp only [wholeBlock, hor]
  refine .of_outside hbase ?_ ((htags.mono hlow hhigh).trans
    (setLink_outside bin _ hlt (h.front_inside hlist)))
  exact (setLink_sameArena _ bin _ _).arenaBase

omit [DecidableEq ι] in
/-- Only the region itself is cleared, when it is mapped. -/
theorem arenaExtend_mapped (hsound : mmap.Sound) (s : Globals ι) (n : Nat) :
    Mapped s (arenaExtend mmap s n).1 := by
  have hmove : ∀ t : Globals ι, Mapped t (moveBreak t n).1 := by
    intro t
    unfold moveBreak
    split
    · exact .of_mem rfl rfl
    · split <;> exact .of_mem rfl rfl
  unfold arenaExtend
  split
  · next hbase =>
      cases hmap : mmap s.mmapCalls with
      | none => exact .of_mem rfl rfl
      | some base =>
          have hpage := (hsound _ _ hmap).2.1
          refine Mapped.trans ⟨fun hmapped => absurd hbase hmapped, fun hzero => ?_, fun _ => ?_⟩
            (hmove (installArena s base))
          · have hnone : base = 0 := hzero
            omega
          · exact fill_sameOutside s.mem base arenaSize 0
  · exact hmove s

omit [DecidableEq ι] in
/-- The tags of a block that the arena has granted. -/
theorem granted_mapped {blocks : List Block} {u : Block} (hroom : ArenaRoom s' blocks)
    (hu : u ∈ Layout.usedBlocks blocks)
    (hmem : s'.mem = setTags s.mem u.addr (u.size % 2 ^ 32 ||| 1))
    (hbase : s'.arenaBase = s.arenaBase) : Mapped s s' := by
  obtain ⟨hrow, hflag⟩ := Layout.mem_usedBlocks.mp hu
  obtain ⟨hregion, hlow, hhigh, hlt⟩ := hroom.inside hrow
  obtain ⟨_, _, hsize, _⟩ := hroom.bounds hrow
  have hmod := u.size_mod
  have hhead : u.size % 2 ^ 32 ||| 1 = u.head := by
    rw [Nat.mod_eq_of_lt hsize, or_one_of_even (by omega), Block.head, hflag]
    rfl
  have htags := setTags_sameOutside (b := u) s.mem (by omega) hsize
  rw [← hhead, ← hmem] at htags
  refine .of_outside (hbase ▸ hregion) hbase ?_
  rw [← hbase]
  exact htags.mono hlow hhigh

omit [DecidableEq ι] in
/-- The end of `my_malloc`: the tags go to the block that is returned. -/
theorem extendHeap_mapped (hsound : mmap.Sound) (hplaced : BreakPlaced s)
    (heq : extendHeap account mmap s need = (s', p))
    (hblock : p = 0 ∨ ∃ u, p = u.payload ∧ u.size = need ∧ u ∈ Layout.usedBlocks L.blocks ∧
      ArenaRoom s' L.blocks) :
    Mapped s s' := by
  have hmapped₁ := arenaExtend_mapped hsound s 0
  generalize hfirst : arenaExtend mmap s 0 = first at hmapped₁
  obtain ⟨s₁, cur⟩ := first
  have hmapped₂ := arenaExtend_mapped hsound s₁ (ptrAdd need (ptrSub 12 cur % 16))
  generalize hsecond : arenaExtend mmap s₁ (ptrAdd need (ptrSub 12 cur % 16)) = second at hmapped₂
  obtain ⟨s₂, top⟩ := second
  have hmapped₃ := arenaExtend_mapped hsound s₂ 0
  generalize hthird : arenaExtend mmap s₂ 0 = third at hmapped₃
  obtain ⟨s₃, hi⟩ := third
  have hmapped := hmapped₁.trans (hmapped₂.trans hmapped₃)
  have hpad := Nat.mod_lt (ptrSub 12 cur) (show 0 < 16 by decide)
  obtain ⟨htop, _⟩ := arenaExtend_placed hsound
    ((arenaExtend_placed hsound hplaced hfirst).2 (Or.inl rfl)) hsecond
  rcases htop with rfl | hplace
  · rw [extendHeap_refused_state account hfirst hsecond hthird] at heq
    obtain ⟨rfl, _⟩ := Prod.mk.inj heq
    exact hmapped.trans (.of_mem rfl rfl)
  · have hne : top ≠ mapFailed := by
      unfold mapFailed
      omega
    obtain ⟨s'', heq', hmem, _, hbase⟩ := extendHeap_granted account hfirst hsecond hthird hne
    obtain ⟨rfl, rfl⟩ := Prod.mk.inj (heq.symm.trans heq')
    rw [ptrAdd_of_lt (by omega : top + ptrSub 12 cur % 16 < 2 ^ 64)] at hmem hblock
    rw [ptrAdd_of_lt (by omega)] at hblock
    obtain ⟨u, hu, rfl, hused, hroom⟩ := hblock.resolve_left (Nat.succ_ne_zero _)
    -- The block that is returned starts where the tags are written.
    have haddr : u.addr = top + ptrSub 12 cur % 16 := (Nat.add_right_cancel hu).symm
    exact hmapped.trans (granted_mapped hroom hused (haddr ▸ hmem) hbase)

/-- A request whose sums do not wrap. -/
theorem mallocWith_mapped {L' : Layout ι} {size : Nat} (hsound : mmap.Sound)
    (h : Pooled binOf s L) (hsize : size + 40 ≤ 2 ^ 64)
    (heq : mallocWith binOf account mmap s size = some (s', p))
    (hanswered : Answered binOf account mmap s L size s' p L') : Mapped s s' := by
  obtain ⟨hge, hmod, _, _, hlt⟩ := chunkNeed_bounds hsize
  have hscanned : ∀ steps, Mapped s (addScanSteps s steps) := fun _ => .of_mem rfl rfl
  rcases h.scan_cases (chunkNeed size) with
    ⟨front, c, back, hlist, _, _, hwalk⟩ | ⟨_, hwalk⟩
  · have h₁ := h.addScanSteps (front.length + 1)
    have hc := (h₁.binned.mem_iff.mp
      (show c ∈ L.lists (binOf (chunkNeed size)) by simp [hlist])).1
    have htag : tagSize (load (addScanSteps s (front.length + 1)).mem c.addr 4) = c.size :=
      (h₁.threaded.tagged c hc).tagSize_head
    simp only [mallocWith, hwalk, h₁.head_eq hlist, htag] at heq
    refine (hscanned (front.length + 1)).trans ?_
    split at heq
    · next hsplit =>
        rw [ptrAdd_of_lt (by omega)] at hsplit
        have hmapped := splitBlock_mapped account h₁ hlist hge hmod hsplit
        rwa [Option.some.inj heq] at hmapped
    · have hmapped := wholeBlock_mapped account h₁ hlist
      rwa [Option.some.inj heq] at hmapped
  · simp only [mallocWith, hwalk] at heq
    refine (hscanned _).trans (extendHeap_mapped (L := L') hsound
      (h.addScanSteps _).breakPlaced (Option.some.inj heq) ?_)
    rcases hanswered.gains with ⟨hp, _⟩ | ⟨u, _, _, _, hp, hsize, hperm, _⟩
    · exact Or.inl hp
    · exact Or.inr ⟨u, hp, hsize, hperm.mem_iff.mpr List.mem_cons_self, hanswered.pooled.room⟩

end Request

namespace Segregated

variable {mmap : Mmap} {w w' : Client Bin} {s s' : State} {L : Layout Bin} {call : Call} {q : Nat}

/-- Bytes that go to the payload of a block. -/
theorem payload_mapped {blocks : List Block} {u : Block} {len : Nat} (hroom : ArenaRoom s blocks)
    (hu : u ∈ blocks) (hfit : len + 8 ≤ u.size) (hbase : s'.arenaBase = s.arenaBase)
    (hmem : SameOutside s.mem s'.mem u.payload len) : Mapped s s' := by
  apply hroom.mapped hu hbase (hmem.mono ?_ ?_)
  · exact Nat.le_add_right _ _
  · unfold Block.payload
    omega

theorem myFree_mapped {c : Block} (h : Pooled sizeToBin s L)
    (hc : c ∈ Layout.usedBlocks L.blocks) : Mapped s (myFree s c.payload) := by
  obtain ⟨hrow, hused⟩ := Layout.mem_usedBlocks.mp hc
  obtain ⟨pre, post, hblocks⟩ := List.append_of_mem hrow
  obtain ⟨_, _, _, hsame⟩ := myFree_spec h hblocks hused
  have hge := c.size_ge
  exact h.room.mapped hrow hsame.arenaBase
    ((myFree_sameOutside h hrow hused).mono (Nat.le_refl _) (by omega))

namespace Booked

theorem free_mapped {ptr : Nat} (h : Booked mmap w L) (hptr : ptr = 0 ∨ w.Holds ptr) :
    Mapped w.heap (myFree w.heap ptr) := by
  rcases hptr with rfl | ⟨n, hmem⟩
  · rw [myFree_null]
    exact .of_mem rfl rfl
  · obtain ⟨c, hc, rfl, _⟩ := h.owns.block_of_mem hmem
    exact myFree_mapped h.pooled hc

variable (hsound : mmap.Sound)
include hsound

/-- A request, with the block for what is written next. -/
theorem request_mapped {n : Nat} (h : Booked mmap w L) (hadmits : AdmitsLate mmap w call)
    (hn : request call = some n) :
    n + 8 ≤ chunkNeed n ∧ ∃ s' p L', myMalloc mmap w.heap n = some (s', p) ∧ Mapped w.heap s' ∧
      Answered sizeToBin liveAdd mmap w.heap L n s' p L' ∧
      (p ≠ 0 → ∃ u ∈ L'.blocks, p = u.payload ∧ n + 8 ≤ u.size) := by
  obtain ⟨hsize, s', p, L', heq, hanswered⟩ := h.answered hsound hadmits hn
  have hroom := (chunkNeed_bounds hsize).2.2.1
  refine ⟨hroom, s', p, L', heq, mallocWith_mapped hsound h.pooled hsize heq hanswered, hanswered,
    fun hp => ?_⟩
  rcases hanswered.gains with ⟨hnull, _⟩ | ⟨u, _, _, _, hpayload, hneed, hperm, _⟩
  · exact absurd hnull hp
  · have hu := (Layout.mem_usedBlocks.mp (hperm.mem_iff.mpr List.mem_cons_self)).1
    exact ⟨u, hu, hpayload, by omega⟩

theorem calloc_mapped {nmemb size p : Nat} (h : Booked mmap w L)
    (hadmits : AdmitsLate mmap w (.calloc nmemb size))
    (hcall : myCalloc mmap w.heap nmemb size = some (s', p)) : Mapped w.heap s' := by
  cases hrequest : callocRequest nmemb size with
  | none =>
      have hnone := (callocWith_none hrequest).symm.trans hcall
      obtain ⟨rfl, _⟩ := Prod.mk.inj (Option.some.inj hnone)
      exact .of_mem rfl rfl
  | some n =>
      obtain ⟨_, s₁, p₁, L', heq, hmapped, hanswered, hblock⟩ :=
        h.request_mapped hsound hadmits hrequest
      have hfilled : (if p₁ = 0 then some (s₁, p₁)
          else some ({ s₁ with mem := fill s₁.mem p₁ n 0 }, p₁)) = some (s', p) := by
        have hresult := (callocWith_some hrequest).symm.trans hcall
        rwa [heq] at hresult
      split at hfilled
      · obtain ⟨rfl, _⟩ := Prod.mk.inj (Option.some.inj hfilled)
        exact hmapped
      · next hp =>
          obtain ⟨rfl, _⟩ := Prod.mk.inj (Option.some.inj hfilled)
          obtain ⟨u, hu, rfl, hfit⟩ := hblock hp
          exact hmapped.trans (payload_mapped hanswered.pooled.room hu hfit rfl
            (fill_sameOutside _ _ _ _))

theorem realloc_mapped {ptr size p : Nat} (h : Booked mmap w L)
    (hadmits : AdmitsLate mmap w (.realloc ptr size))
    (hcall : myRealloc mmap w.heap ptr size = some (s', p)) : Mapped w.heap s' := by
  by_cases hnull : ptr = 0
  · obtain ⟨_, s₁, p₁, L', heq, hmapped, _⟩ := h.request_mapped hsound hadmits
      (show request _ = some size by simp [request, hnull])
    rw [myRealloc, if_pos hnull, heq] at hcall
    obtain ⟨rfl, _⟩ := Prod.mk.inj (Option.some.inj hcall)
    exact hmapped
  have hheld := hadmits.1.1.1.resolve_left hnull
  by_cases hzero : size = 0
  · rw [myRealloc, if_neg hnull, if_pos hzero] at hcall
    obtain ⟨rfl, _⟩ := Prod.mk.inj (Option.some.inj hcall)
    exact h.free_mapped (Or.inr hheld)
  obtain ⟨n, hmem⟩ := hheld
  obtain ⟨c, hc, rfl, _⟩ := h.owns.block_of_mem hmem
  obtain ⟨hroom, s₁, p₁, L₁, heq, hmapped, hanswered, hblock⟩ := h.request_mapped hsound hadmits
    (show request _ = some size by simp [request, hzero])
  rcases myRealloc_moved h.pooled hc hzero heq hanswered.pooled
      (hanswered.gains.effect hroom) hanswered.kept with
    ⟨_, hrealloc⟩ | ⟨s₂, rfl, hp, hpooled, hc₁, _, _, hrealloc⟩
  · obtain ⟨rfl, _⟩ := Prod.mk.inj (Option.some.inj (hrealloc.symm.trans hcall))
    exact hmapped
  · obtain ⟨rfl, _⟩ := Prod.mk.inj (Option.some.inj (hrealloc.symm.trans hcall))
    obtain ⟨u, hu, rfl, hfit⟩ := hblock hp
    have hcopied : Mapped s₁ (copyOver s₁ c.payload u.payload size) := by
      refine payload_mapped hanswered.pooled.room hu hfit ?_ ((copy_sameOutside _ _ _ _).mono
        (Nat.le_refl _) ?_)
      · rfl
      · split <;> omega
    exact hmapped.trans (hcopied.trans (myFree_mapped hpooled hc₁))

/-- Every call writes to the region only. -/
theorem mapped (h : Booked mmap w L) (hadmits : AdmitsLate mmap w call)
    (hexec : w.exec (api mmap) call = some (w', q)) : Mapped w.heap w'.heap := by
  cases call with
  | malloc size =>
      obtain ⟨_, s', p, L', heq, hmapped, _⟩ := h.request_mapped hsound hadmits rfl
      have hcall : myMalloc mmap w.heap size = some (w'.heap, q) := (Client.exec_malloc hexec).1
      obtain ⟨rfl, _⟩ := Prod.mk.inj (Option.some.inj (heq.symm.trans hcall))
      exact hmapped
  | calloc nmemb size => exact h.calloc_mapped hsound hadmits (Client.exec_calloc hexec).1
  | free ptr =>
      rw [← Option.some.inj (Client.exec_free hexec).1]
      exact h.free_mapped hadmits.1.1
  | realloc ptr size => exact h.realloc_mapped hsound hadmits (Client.exec_realloc hexec).1
  | write addr byte =>
      obtain ⟨rfl, _⟩ := Prod.mk.inj (Option.some.inj hexec)
      obtain ⟨ptr, ⟨n, hmem⟩, hlow, hhigh⟩ := hadmits.1.1
      obtain ⟨b, hb, rfl, _⟩ := h.owns.block_of_mem hmem
      have hrow := (Layout.mem_usedBlocks.mp hb).1
      rw [h.pooled.chunk_eq hrow] at hhigh
      refine h.pooled.room.mapped hrow rfl fun x hx => Function.update_of_ne ?_ _ _
      unfold Block.payload at hlow hhigh
      omega
  | statReset =>
      obtain ⟨rfl, _⟩ := Prod.mk.inj (Option.some.inj hexec)
      exact .of_mem rfl rfl

end Booked

/-- In every state that a run without a wrapped sum leads to, all bytes outside the region are
as they were at the start, and every further call leaves them so. -/
theorem reach_mapped (hsound : mmap.Sound)
    (hreach : Runs.Reach (Client.step (api mmap)) (AdmitsLate mmap) (Client.initial Bin) w) :
    Mapped (Globals.initial Bin) w.heap := by
  induction hreach with
  | start => exact .of_mem rfl rfl
  | next hreach hadmits hstep ih =>
      obtain ⟨L, h⟩ := reach_booked hsound hreach
      obtain ⟨⟨w', q⟩, hexec, rfl⟩ := Option.map_eq_some_iff.mp hstep
      exact ih.trans (h.mapped hsound hadmits hexec)

end Segregated

end AllocSitter
