/-
`segregated_allocator.c` on a represented heap: what `my_free` and `my_realloc`
do to it, and that the file keeps the client's contract.
-/
import AllocSitter.Contract
import AllocSitter.Segregated

namespace AllocSitter

namespace Segregated

open ByteMemory LinkedChain Tiling

/-- The byte count with which a call reaches `my_malloc`, if it does. -/
def request : Call → Option Nat
  | .malloc size => some size
  | .calloc nmemb size => callocRequest nmemb size
  | .realloc ptr size => if ptr ≠ 0 ∧ size = 0 then none else some size
  | _ => none

/-- The calls that `my_malloc` can serve: sums of the scan do not wrap, and the
arena is reached safely. -/
def Safe (mmap : Mmap) (s : State) (call : Call) : Prop :=
  ∀ n, request call = some n → n + 40 ≤ 2 ^ 64 ∧ RequestSafe sizeToBin mmap s n

theorem liveAdd_freelistLen (n : Nat) (stat : AllocStat) :
    (liveAdd n stat).freelistLen = stat.freelistLen := by
  simp only [liveAdd]
  split <;> rfl

variable {shape : State → List Block → Prop} [LawfulShape shape] {mmap : Mmap} {s : State}
  {L : Layout Bin} {c : Block} {pre post : List Block}

theorem myFree_null (s : State) : myFree s 0 = s := by simp [myFree]

/-- `my_free` clears the flag in the header and puts the block in front of the
list of its class. -/
theorem myFree_spec (h : RepresentsIn shape sizeToBin s L)
    (hblocks : L.blocks = pre ++ c :: post) (hused : c.used = true) :
    RepresentsIn shape sizeToBin (myFree s c.payload)
        ⟨pre ++ [c.release] ++ post, pushBlock sizeToBin L.lists c.release⟩ ∧
      (∀ b ∈ pre ++ post, SameOn s.mem (myFree s c.payload).mem b.addr b.size) ∧
      (myFree s c.payload).stat =
        { s.stat with
          liveRealBytes := ptrSub s.stat.liveRealBytes c.size
          freelistLen := ptrAdd s.stat.freelistLen 1 } ∧
      SameArena s (myFree s c.payload) := by
  have hc : c ∈ L.blocks := by simp [hblocks]
  obtain ⟨hlow, hhigh, _, hcur, _⟩ := h.room.bounds hc
  have hge := c.size_ge
  have htagged := h.threaded.tagged c hc
  have hheader := h.header_eq hc
  have hflag := htagged.not_clear hused
  have hptr : c.payload ≠ 0 := by
    unfold Block.payload
    omega
  obtain ⟨hheld, hframe⟩ := (h.held hblocks hused).release hused
  generalize hm : store s.mem c.addr 4 (load s.mem c.addr 4 / 2 * 2) = m at hheld hframe
  have htagged' : c.release.Tagged m := hheld.threaded.tagged c.release (by simp)
  have hword : load m c.addr 4 = c.size := htagged'.1
  have htag : tagSize c.size = c.size := by
    have := tagSize_add c.size_mod (show 0 < 16 by decide)
    simpa using this
  let stat : AllocStat :=
    { s.stat with liveRealBytes := ptrSub s.stat.liveRealBytes c.size }
  have hstat : HeldIn shape sizeToBin { s with mem := m, stat := stat } L.lists pre [c.release]
      post :=
    hheld.of_stat (by rfl)
  obtain ⟨hrep, hsame⟩ := hstat.push rfl
  have heq : myFree s c.payload =
      freelistPush { s with mem := m, stat := stat } c.release.addr
        (sizeToBin c.release.size) := by
    simp only [myFree, hptr, ↓reduceIte, hheader, hflag, hm, hword, htag]
    rfl
  rw [heq]
  refine ⟨hrep, ?_, rfl, (SameArena.of_mem_stat s m stat).trans (freelistPush_sameArena _ _ _)⟩
  intro b hb
  apply (hframe b hb).trans
  apply hsame.sameOn
  have hapart := (h.held hblocks hused).apart (List.mem_singleton_self c) hb
  change b.addr + b.size ≤ c.addr + 4 ∨ c.addr + 4 + 8 ≤ b.addr
  omega

/-- The used blocks that `my_free` leaves. -/
theorem usedBlocks_freed (hused : c.used = true) :
    (Layout.usedBlocks (pre ++ c :: post)).Perm
      (c :: Layout.usedBlocks (pre ++ [c.release] ++ post)) := by
  have hfree : Layout.usedBlocks (pre ++ [c.release] ++ post) =
      Layout.usedBlocks (pre ++ post) := by
    rw [List.append_assoc, List.singleton_append]
    exact Layout.usedBlocks_free pre post rfl
  rw [hfree]
  exact Layout.usedBlocks_used pre post hused

theorem myFree_freed (h : Represents sizeToBin s L)
    (hc : c ∈ Layout.usedBlocks L.blocks) :
    Freed sizeToBin s L c (myFree s c.payload) := by
  obtain ⟨hrow, hused⟩ := Layout.mem_usedBlocks.mp hc
  obtain ⟨pre, post, hblocks⟩ := List.append_of_mem hrow
  obtain ⟨hrep, hframe, _⟩ := myFree_spec h hblocks hused
  refine ⟨_, hrep, ?_, ?_⟩
  · rw [hblocks]
    exact usedBlocks_freed hused
  · intro b hb hgiven
    have hne : b ≠ c := fun heq => hgiven (congrArg Block.payload heq)
    have hb' := (Layout.mem_usedBlocks.mp hb).1
    exact hframe b (mem_row_of_ne (hblocks ▸ hb') hne)

/-- `my_realloc` of a live block: a new block first; if there is one, the copy
goes to its payload and the old block is freed in the heap that results. -/
theorem myRealloc_moved {s₁ : State} {L₁ : Layout Bin} {p size : Nat}
    (h : RepresentsIn shape sizeToBin s L) (hc : c ∈ Layout.usedBlocks L.blocks)
    (hpos : size ≠ 0) (hmalloc : myMalloc mmap s size = some (s₁, p))
    (hrep : RepresentsIn shape sizeToBin s₁ L₁)
    (heffect : Effect (Layout.usedBlocks L.blocks) 0 size (Layout.usedBlocks L₁.blocks) p)
    (hkept : ∀ b ∈ Layout.usedBlocks L.blocks, SameOn s.mem s₁.mem b.addr b.size) :
    (p = 0 ∧ myRealloc mmap s c.payload size = some (s₁, 0)) ∨
      ∃ s₂, s₂ = copyOver s₁ c.payload p size ∧ p ≠ 0 ∧ RepresentsIn shape sizeToBin s₂ L₁ ∧
        c ∈ Layout.usedBlocks L₁.blocks ∧
        (∀ b ∈ Layout.usedBlocks L.blocks, SameOn s.mem s₂.mem b.addr b.size) ∧
        (∀ i < min (c.size - 8) size, s₂.mem (p + i) = s.mem (c.payload + i)) ∧
        myRealloc mmap s c.payload size = some (myFree s₂ c.payload, p) := by
  have hptr := h.payload_ne_zero hc
  rcases h.allocation_cases heffect with ⟨rfl, _⟩ | ⟨u, rfl, hperm, hfit⟩
  · refine Or.inl ⟨rfl, ?_⟩
    simp [myRealloc, hptr, hpos, hmalloc]
  · have hu : u ∈ Layout.usedBlocks L₁.blocks := hperm.mem_iff.mpr List.mem_cons_self
    obtain ⟨hc₁, hne⟩ := hrep.gained hperm hc
    have hp := hrep.payload_ne_zero hu
    -- The header of the old block still says how much there is to copy.
    obtain ⟨hrow, _, hhigh, hcur, _⟩ := hrep.used_bounds hc₁
    have hge := c.size_ge
    have hheader := hrep.header_eq hrow
    have htag := (hrep.threaded.tagged c hrow).tagSize_head
    have hword : tagSize (load s₁.mem c.addr 4) < 2 ^ 32 :=
      Nat.lt_of_le_of_lt (tagSize_le _) (load_lt _ _ _)
    rw [htag] at hword
    have hold : (2 ^ 32 - 8 + c.size) % 2 ^ 32 = c.size - 8 := by omega
    have hlen : (if c.size - 8 < size then c.size - 8 else size) = min (c.size - 8) size := by
      split <;> omega
    have hshort : min (c.size - 8) size + 8 ≤ c.size := by omega
    obtain ⟨hrep', hkept', hdata⟩ := hrep.copy_into hperm hkept hc hshort (by omega)
    refine Or.inr ⟨_, ?_, hp, hrep', hc₁, hkept', hdata, ?_⟩
    · simp only [copyOver, hheader, htag, hold, hlen]
    · simp only [myRealloc, hptr, hpos, ↓reduceIte, hmalloc, Option.bind_eq_bind,
        Option.bind_some, hp, copyOver, hheader, htag, hold, hlen]

theorem myRealloc_spec (hsound : mmap.Sound) (h : Represents sizeToBin s L)
    (hc : c ∈ Layout.usedBlocks L.blocks) {size : Nat} (hpos : size ≠ 0)
    (hsize : size + 40 ≤ 2 ^ 64) (hsafe : RequestSafe sizeToBin mmap s size) :
    ∃ s₁ p L₁, myMalloc mmap s size = some (s₁, p) ∧
      MallocCase sizeToBin liveAdd mmap s L (chunkNeed size) s₁ p L₁ ∧
      Represents sizeToBin s₁ L₁ ∧
      (∀ b ∈ Layout.usedBlocks L.blocks, SameOn s.mem s₁.mem b.addr b.size) ∧
      ((p = 0 ∧ myRealloc mmap s c.payload size = some (s₁, 0)) ∨
        ∃ s₂, s₂ = copyOver s₁ c.payload p size ∧ p ≠ 0 ∧ Represents sizeToBin s₂ L₁ ∧
          c ∈ Layout.usedBlocks L₁.blocks ∧
          (∀ b ∈ Layout.usedBlocks L.blocks, SameOn s.mem s₂.mem b.addr b.size) ∧
          (∀ i < min (c.size - 8) size, s₂.mem (p + i) = s.mem (c.payload + i)) ∧
          myRealloc mmap s c.payload size = some (myFree s₂ c.payload, p)) := by
  obtain ⟨s₁, p, L₁, heq, hcase, hrep, hframe⟩ :=
    mallocWith_spec liveAdd_freelistLen h hsound hsize hsafe
  have hkept : ∀ b ∈ Layout.usedBlocks L.blocks, SameOn s.mem s₁.mem b.addr b.size := by
    intro b hb
    obtain ⟨hrow, hused⟩ := Layout.mem_usedBlocks.mp hb
    exact hframe b hrow hused
  have heffect := hcase.effect h.lists_free (chunkNeed_bounds hsize).2.2.1
  exact ⟨s₁, p, L₁, heq, hcase, hrep, hkept, myRealloc_moved h hc hpos heq hrep heffect hkept⟩

/-- The allocator with segregated lists serves every safe call. -/
theorem contract (hsound : mmap.Sound) : Contract sizeToBin (api mmap) (Safe mmap) where
  malloc := by
    intro s L size h hok
    obtain ⟨hsize, hsafe⟩ := hok size rfl
    exact mallocWith_served liveAdd_freelistLen hsound h hsize hsafe
  calloc := by
    intro s L nmemb size h hok
    exact callocWith_served liveAdd_freelistLen hsound h hok
  free := by
    intro s L ptr h howned
    rcases howned with rfl | ⟨c, hc, rfl⟩
    · refine ⟨s, congrArg some (myFree_null s), L, h, ?_, fun b _ _ => SameOn.refl _ _ _⟩
      exact .keep (Or.inl rfl) (List.Perm.refl _)
    · exact ⟨_, rfl, (myFree_freed h hc).served⟩
  realloc := by
    intro s L ptr size h howned hok
    rcases howned with rfl | ⟨c, hc, rfl⟩
    · obtain ⟨hsize, hsafe⟩ := hok size (by simp [request])
      exact mallocWith_served liveAdd_freelistLen hsound h hsize hsafe
    · have hptr := h.payload_ne_zero hc
      by_cases hzero : size = 0
      · subst hzero
        refine ⟨myFree s c.payload, 0, by simp [api, myRealloc, hptr], ?_⟩
        exact (myFree_freed h hc).served
      · obtain ⟨hsize, hsafe⟩ := hok size (by simp [request, hzero])
        obtain ⟨s₁, p, L₁, _, hcase, hrep, hkept, hresult⟩ :=
          myRealloc_spec hsound h hc hzero hsize hsafe
        have heffect := hcase.effect h.lists_free
          (chunkNeed_bounds hsize).2.2.1
        rcases hresult with ⟨rfl, heq⟩ | ⟨s₂, _, hp, hrep₁, hc₁, hkept₁, _, heq⟩
        · refine ⟨s₁, 0, heq, L₁, hrep, ?_, fun b hb _ => hkept b hb⟩
          rcases h.allocation_cases heffect with ⟨_, hperm⟩ | ⟨u, hpu, hperm, _⟩
          · exact .keep (Or.inr hzero) hperm
          · have hu : u ∈ Layout.usedBlocks L₁.blocks :=
              hperm.mem_iff.mpr List.mem_cons_self
            exact absurd hpu.symm (hrep.payload_ne_zero hu)
        · rcases h.allocation_cases heffect with ⟨hp', _⟩ | ⟨u, rfl, hperm, hfit⟩
          · exact absurd hp' hp
          · exact ⟨_, u.payload, heq, (myFree_freed hrep₁ hc₁).move hrep₁ hc hperm hkept₁
              hzero hfit⟩
  statReset := by
    intro s L h
    exact ⟨h.of_same h.threaded (SameArena.of_mem_stat s s.mem _) rfl, rfl⟩

/-- A call as a well-behaved client makes it, with byte counts of at most `2 ^ 63`,
whose request, if it misses the lists, reaches the arena safely. -/
def Admits (mmap : Mmap) (w : Client Bin) (call : Call) : Prop :=
  w.Disciplined (2 ^ 63) (2 ^ 63) call ∧
    PassesSafely sizeToBin mmap w.heap (request call)

instance (mmap : Mmap) (w : Client Bin) (call : Call) : Decidable (Admits mmap w call) :=
  inferInstanceAs (Decidable (_ ∧ _))

/-- What reaches `my_malloc` is bounded by what the client asks for. -/
theorem request_le {bound n : Nat} {call : Call} (hwithin : call.Within bound bound)
    (hn : request call = some n) : n ≤ bound := by
  cases call with
  | malloc size =>
      rw [← Option.some.inj hn]
      exact hwithin
  | calloc nmemb size =>
      rw [(callocRequest_eq hn).1]
      exact hwithin
  | realloc ptr size =>
      simp only [request] at hn
      split at hn
      · simp at hn
      · rw [← Option.some.inj hn]
        exact hwithin
  | free => simp [request] at hn
  | write => simp [request] at hn
  | statReset => simp [request] at hn

theorem Admits.safe {w : Client Bin} {call : Call} (h : Admits mmap w call) :
    w.Allows call ∧ Safe mmap w.heap call := by
  obtain ⟨⟨hallows, hwithin⟩, hsafe⟩ := h
  refine ⟨hallows, fun n hn => ⟨?_, hsafe n hn⟩⟩
  have hbound := request_le hwithin hn
  omega

end Segregated

end AllocSitter
