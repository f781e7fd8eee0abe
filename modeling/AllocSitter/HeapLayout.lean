/-
What the bytes of a heap stand for: a row of tagged blocks with the free lists
threaded through the free ones, and what the primitive writes of the allocators
do to such a picture.
-/
import AllocSitter.Allocator
import AllocSitter.Tiling
import Mathlib.Data.List.Perm.Basic

namespace AllocSitter

open ByteMemory LinkedChain Tiling

section Arithmetic

theorem ptrAdd_of_lt {p n : Nat} (h : p + n < 2 ^ 64) : ptrAdd p n = p + n := by
  rw [ptrAdd, Nat.add_comm n p]
  exact Nat.mod_eq_of_lt h

theorem ptrSub_of_le {p n : Nat} (hle : n ≤ p) (hlt : p < 2 ^ 64) :
    ptrSub p n = p - n := by
  unfold ptrSub
  omega

theorem tagSize_le (tag : Nat) : tagSize tag ≤ tag := by
  unfold tagSize
  omega

theorem tagSize_add {size flag : Nat} (hsize : size % 16 = 0) (hflag : flag < 16) :
    tagSize (size + flag) = size := by
  unfold tagSize
  omega

theorem or_one_of_even {n : Nat} (h : n % 2 = 0) : n ||| 1 = n + 1 := by
  obtain ⟨k, rfl⟩ : ∃ k, n = 2 * k := ⟨n / 2, by omega⟩
  have := Nat.two_pow_add_eq_or_of_lt (i := 1) (b := 1) (by decide) k
  simpa using this.symm

end Arithmetic

/-- One block of the heap with the flags of its two tags.  The sizes an
allocator hands out, and the flag a used block must carry in its footer, are
part of the type. -/
structure Block where
  addr : Nat
  size : Nat
  used : Bool
  foot : Bool
  size_ge : 16 ≤ size
  size_mod : size % 16 = 0
  foot_of_used : used = true → foot = true
deriving DecidableEq

namespace Block

/-- The header word. -/
def head (b : Block) : Nat := b.size + b.used.toNat

/-- The footer word. -/
def tail (b : Block) : Nat := b.size + b.foot.toNat

/-- The memory holds both tags of the block. -/
def Tagged (m : Memory) (b : Block) : Prop :=
  load m b.addr 4 = b.head ∧ load m (b.addr + b.size - 4) 4 = b.tail

/-- A block just handed out or just cut off, with both tags written. -/
def fresh (addr size : Nat) (used : Bool) (hge : 16 ≤ size) (hmod : size % 16 = 0) :
    Block :=
  ⟨addr, size, used, used, hge, hmod, id⟩

/-- The first `need` bytes of a block, handed out. -/
def taken (c : Block) (need : Nat) (hge : 16 ≤ need) (hmod : need % 16 = 0) : Block :=
  fresh c.addr need true hge hmod

/-- What is left of a block behind its first `need` bytes. -/
def rest (c : Block) (need : Nat) (hmod : need % 16 = 0) (hfit : need + 16 ≤ c.size) :
    Block :=
  fresh (c.addr + need) (c.size - need) false (by omega)
    (by have := c.size_mod; omega)

/-- What `my_free` makes of a block before any merge: the header says free, the
footer still says used. -/
def release (b : Block) : Block :=
  ⟨b.addr, b.size, false, b.foot, b.size_ge, b.size_mod, fun h => by simp at h⟩

variable {m m' : Memory} {b : Block}

theorem Tagged.tagSize_head (h : b.Tagged m) : tagSize (load m b.addr 4) = b.size := by
  rw [h.1, head]
  exact tagSize_add b.size_mod (by cases b.used <;> decide)

theorem Tagged.flag_head (h : b.Tagged m) : load m b.addr 4 % 2 = b.used.toNat := by
  have hmod := b.size_mod
  rw [h.1, head]
  cases b.used <;> simp <;> omega

theorem Tagged.tagSize_tail (h : b.Tagged m) :
    tagSize (load m (b.addr + b.size - 4) 4) = b.size := by
  rw [h.2, tail]
  exact tagSize_add b.size_mod (by cases b.foot <;> decide)

theorem Tagged.flag_tail (h : b.Tagged m) :
    load m (b.addr + b.size - 4) 4 % 2 = b.foot.toNat := by
  have hmod := b.size_mod
  rw [h.2, tail]
  cases b.foot <;> simp <;> omega

theorem Tagged.clear_iff (h : b.Tagged m) : load m b.addr 4 % 2 = 0 ↔ b.used = false := by
  rw [h.flag_head]
  cases b.used <;> decide

theorem Tagged.clear_tail_iff (h : b.Tagged m) :
    load m (b.addr + b.size - 4) 4 % 2 = 0 ↔ b.foot = false := by
  rw [h.flag_tail]
  cases b.foot <;> decide

theorem Tagged.not_clear (h : b.Tagged m) (hused : b.used = true) :
    ¬ load m b.addr 4 % 2 = 0 := by
  rw [h.clear_iff, hused]
  decide

/-- The flags of a block disagree in one direction only. -/
theorem free_of_foot (hfoot : b.foot = false) : b.used = false := by
  cases hused : b.used with
  | false => rfl
  | true =>
      rw [b.foot_of_used hused] at hfoot
      exact absurd hfoot (by decide)

/-- Two blocks at one address with the tags that one memory holds are the same. -/
theorem Tagged.unique {c : Block} (hb : b.Tagged m) (hc : c.Tagged m)
    (haddr : b.addr = c.addr) : b = c := by
  have hsize : b.size = c.size := by
    rw [← hb.tagSize_head, ← hc.tagSize_head, haddr]
  have hused : b.used.toNat = c.used.toNat := by
    rw [← hb.flag_head, ← hc.flag_head, haddr]
  have hfoot : b.foot.toNat = c.foot.toNat := by
    rw [← hb.flag_tail, ← hc.flag_tail, haddr, hsize]
  have hflag : ∀ x y : Bool, x.toNat = y.toNat → x = y := by decide
  cases b
  cases c
  simp only [mk.injEq]
  exact ⟨haddr, hsize, hflag _ _ hused, hflag _ _ hfoot⟩

theorem Tagged.congr (h : b.Tagged m) (hsame : SameOn m m' b.addr b.size) :
    b.Tagged m' := by
  have hge := b.size_ge
  constructor
  · rw [← h.1]
    exact load_congr (hsame.mono (Nat.le_refl _) (by omega))
  · rw [← h.2]
    exact load_congr (hsame.mono (by omega) (by omega))

/-- The payload of a block lies strictly between its tags, so writing there
keeps both. -/
theorem Tagged.of_payload (h : b.Tagged m)
    (hout : ∀ x, (x < b.addr + 4 ∨ b.addr + b.size - 4 ≤ x) → m' x = m x) :
    b.Tagged m' := by
  have hge := b.size_ge
  constructor
  · rw [← h.1]
    exact load_congr fun x hlo hhi => hout x (by omega)
  · rw [← h.2]
    exact load_congr fun x hlo hhi => hout x (by omega)

end Block

/-- Writing the tags of a block touches its first and its last word only. -/
theorem setTags_eq (m : Memory) {header size flag : Nat} (hge : 16 ≤ size)
    (hmod : size % 16 = 0) (hflag : flag < 16) (hsize : size + flag < 2 ^ 32)
    (hend : header + size < 2 ^ 64) :
    setTags m header (size + flag) =
      store (store m header 4 (size + flag)) (header + size - 4) 4 (size + flag) := by
  have htag : (size + flag) % 2 ^ 32 = size + flag := Nat.mod_eq_of_lt hsize
  have hfoot : ptrSub (ptrAdd header size) 4 = header + size - 4 := by
    rw [ptrAdd_of_lt hend, ptrSub_of_le (by omega) hend]
  simp only [setTags, htag, tagSize_add hmod hflag, hfoot]

section SetTags

variable (m : Memory) {b : Block} (hbound : b.addr + b.size < 2 ^ 64)
  (hsize : b.size < 2 ^ 32)
include hbound hsize

theorem setTags_block :
    setTags m b.addr b.head =
      store (store m b.addr 4 b.head) (b.addr + b.size - 4) 4 b.head := by
  have hmod := b.size_mod
  have hlt : b.used.toNat < 2 := by cases b.used <;> decide
  exact setTags_eq m b.size_ge hmod (by omega) (by omega) hbound

theorem setTags_tagged (hfoot : b.foot = b.used) :
    b.Tagged (setTags m b.addr b.head) := by
  have hge := b.size_ge
  have hmod := b.size_mod
  have hlt : b.used.toNat < 2 := by cases b.used <;> decide
  have hword : b.head % 256 ^ 4 = b.head := Nat.mod_eq_of_lt (by unfold Block.head; omega)
  rw [setTags_block m hbound hsize]
  constructor
  · rw [load_store_of_disjoint _ _ (by omega), load_store_same, hword]
  · rw [load_store_same, hword, Block.tail, hfoot, Block.head]

theorem setTags_same {x : Nat} (hx : x < b.addr ∨ b.addr + 4 ≤ x)
    (hx' : x < b.addr + b.size - 4 ∨ b.addr + b.size ≤ x) :
    setTags m b.addr b.head x = m x := by
  have hge := b.size_ge
  rw [setTags_block m hbound hsize]
  rw [store_sameOutside _ _ _ _ x (by omega), store_sameOutside _ _ _ _ x (by omega)]

theorem setTags_sameOutside :
    SameOutside m (setTags m b.addr b.head) b.addr b.size := by
  intro x hx
  have hge := b.size_ge
  exact setTags_same m hbound hsize (by omega) (by omega)

/-- Tags written before or after a store to another place. -/
theorem setTags_store_comm {a k : Nat} (v : Nat)
    (hsep : b.addr + b.size ≤ a ∨ a + k ≤ b.addr) :
    setTags (store m a k v) b.addr b.head = store (setTags m b.addr b.head) a k v := by
  have hge := b.size_ge
  rw [setTags_block _ hbound hsize, setTags_block _ hbound hsize,
    store_comm m v b.head (by omega), store_comm _ v b.head (by omega)]

theorem setTags_comm {c : Block} (hbound' : c.addr + c.size < 2 ^ 64)
    (hsize' : c.size < 2 ^ 32)
    (hsep : b.addr + b.size ≤ c.addr ∨ c.addr + c.size ≤ b.addr) :
    setTags (setTags m c.addr c.head) b.addr b.head =
      setTags (setTags m b.addr b.head) c.addr c.head := by
  have hge := c.size_ge
  rw [setTags_block m hbound' hsize', setTags_store_comm _ hbound hsize _ (by omega),
    setTags_store_comm _ hbound hsize _ (by omega), ← setTags_block _ hbound' hsize']

end SetTags

theorem mem_row_of_ne {pre post : List Block} {b c : Block} (hb : b ∈ pre ++ c :: post)
    (hne : b ≠ c) : b ∈ pre ++ post := by
  simp only [List.mem_append, List.mem_cons] at hb ⊢
  tauto

theorem mem_row_of_mem {pre mid post : List Block} {b : Block} (hb : b ∈ pre ++ post) :
    b ∈ pre ++ mid ++ post := by
  simp only [List.mem_append] at hb ⊢
  tauto

theorem ne_of_used {b c : Block} (hb : b.used = true) (hc : c.used = false) : b ≠ c := by
  rintro rfl
  rw [hb] at hc
  exact absurd hc (by simp)

variable {ι : Type}

/-- The free lists `chains` run through the tagged blocks `blocks`: each list
hangs off its head, meets only blocks of the row, and no block is on two. -/
structure Threaded (m : Memory) (heads : ι → Nat) (blocks : List Block)
    (chains : ι → List Nat) : Prop where
  tagged : ∀ b ∈ blocks, b.Tagged m
  linked : ∀ i, Linked (nextFree m) 0 (heads i) (chains i)
  placed : ∀ i, ∀ a ∈ chains i, ∃ b ∈ blocks, b.addr = a
  apart : ∀ i j a, a ∈ chains i → a ∈ chains j → i = j

theorem nextFree_congr {m m' : Memory} {a : Nat} (hlt : a + 4 < 2 ^ 64)
    (hsame : SameOn m m' (a + 4) 8) : nextFree m' a = nextFree m a := by
  unfold nextFree
  rw [ptrAdd_of_lt hlt]
  exact load_congr hsame

section Row

variable {lo hi : Nat} {blocks : List Block} {chains : ι → List Nat}
  (hrow : Spread Block.addr Block.size lo blocks hi) (hhi : hi < 2 ^ 64)
include hrow

theorem block_apart {b c : Block} (hb : b ∈ blocks) (hc : c ∈ blocks)
    (hne : b.addr ≠ c.addr) :
    b.addr + b.size ≤ c.addr ∨ c.addr + c.size ≤ b.addr := by
  rcases hrow.eq_or_apart hc hb with heq | happart
  · exact absurd (congrArg Block.addr heq) hne
  · exact happart

theorem block_eq_of_addr {b c : Block} (hb : b ∈ blocks) (hc : c ∈ blocks)
    (heq : b.addr = c.addr) : b = c :=
  hrow.eq_of_addr_eq (fun d _ => by have := d.size_ge; omega) hc hb heq

include hhi

theorem block_end_lt {b : Block} (hb : b ∈ blocks) : b.addr + b.size < 2 ^ 64 := by
  have := (hrow.bounds hb).2
  omega

/-- A link lies inside the block that carries it, between the two tags. -/
theorem linkCell_lt {b : Block} (hb : b ∈ blocks) :
    b.addr + 12 ≤ b.addr + b.size - 4 ∧ b.addr + 4 < 2 ^ 64 := by
  have hge := b.size_ge
  have hend := block_end_lt hrow hhi hb
  omega

/-- Rewriting the link of one block leaves every tag and every other link. -/
theorem Threaded.of_linkCell {m m' : Memory} {heads : ι → Nat}
    (h : Threaded m heads blocks chains) {c : Block} (hc : c ∈ blocks)
    (hsame : SameOutside m m' (c.addr + 4) 8) :
    (∀ b ∈ blocks, b.Tagged m') ∧
      ∀ b ∈ blocks, b.addr ≠ c.addr → SameOn m m' b.addr b.size ∧
        nextFree m' b.addr = nextFree m b.addr := by
  have hcell := linkCell_lt hrow hhi hc
  have hother : ∀ b ∈ blocks, b.addr ≠ c.addr → SameOn m m' b.addr b.size := by
    intro b hb hne
    have hge := b.size_ge
    exact hsame.sameOn (by have := block_apart hrow hb hc hne; omega)
  constructor
  · intro b hb
    by_cases heq : b.addr = c.addr
    · have hbc := block_eq_of_addr hrow hb hc heq
      subst hbc
      exact (h.tagged b hb).of_payload fun x hx => hsame x (by omega)
    · exact (h.tagged b hb).congr (hother b hb heq)
  · intro b hb hne
    refine ⟨hother b hb hne, ?_⟩
    have hcell' := linkCell_lt hrow hhi hb
    exact nextFree_congr hcell'.2 ((hother b hb hne).mono (by omega) (by omega))

variable [DecidableEq ι]

theorem Threaded.push {s : Globals ι}
    (h : Threaded s.mem s.freeHead blocks chains) {c : Block} (hc : c ∈ blocks)
    (hnull : c.addr ≠ 0) (hoff : ∀ i, c.addr ∉ chains i) (bin : ι) :
    Threaded (freelistPush s c.addr bin).mem (freelistPush s c.addr bin).freeHead
        blocks (Function.update chains bin (c.addr :: chains bin)) ∧
      SameOutside s.mem (freelistPush s c.addr bin).mem (c.addr + 4) 8 := by
  have hcell := linkCell_lt hrow hhi hc
  have hmem : (freelistPush s c.addr bin).mem =
      store s.mem (c.addr + 4) 8 (s.freeHead bin) := by
    simp only [freelistPush, addFreelistLen, ptrAdd_of_lt hcell.2]
  have hsame : SameOutside s.mem (freelistPush s c.addr bin).mem (c.addr + 4) 8 := by
    rw [hmem]
    exact store_sameOutside _ _ _ _
  obtain ⟨htagged, hothers⟩ := h.of_linkCell hrow hhi hc hsame
  have hkeep : ∀ i, ∀ a ∈ chains i,
      nextFree (freelistPush s c.addr bin).mem a = nextFree s.mem a := by
    intro i a ha
    obtain ⟨b, hb, rfl⟩ := h.placed i a ha
    have hne : b.addr ≠ c.addr := by
      intro heq
      exact hoff i (heq ▸ ha)
    exact (hothers b hb hne).2
  refine ⟨⟨htagged, ?_, ?_, ?_⟩, hsame⟩
  · intro i
    by_cases hi' : i = bin
    · subst hi'
      have hlink : nextFree (freelistPush s c.addr i).mem c.addr = s.freeHead i := by
        have hhead : s.freeHead i < 256 ^ 8 := by
          -- A head is `NULL` or the address of a block.
          have hlinked := h.linked i
          cases hchain : chains i with
          | nil =>
              rw [hchain, linked_nil] at hlinked
              omega
          | cons a rest =>
              rw [hchain, linked_cons] at hlinked
              obtain ⟨b, hb, hba⟩ := h.placed i a (by rw [hchain]; exact List.mem_cons_self)
              have hlt := block_end_lt hrow hhi hb
              omega
        rw [nextFree, ptrAdd_of_lt hcell.2, hmem, load_store_same,
          Nat.mod_eq_of_lt hhead]
      simp only [Function.update_self]
      have hhead : (freelistPush s c.addr i).freeHead i = c.addr := by
        simp [freelistPush, addFreelistLen]
      rw [hhead]
      exact (h.linked i).push hnull hlink (hkeep i)
    · have hhead : (freelistPush s c.addr bin).freeHead i = s.freeHead i := by
        simp [freelistPush, addFreelistLen, hi']
      rw [Function.update_of_ne hi', hhead]
      exact (h.linked i).congr (hkeep i)
  · intro i a ha
    by_cases hi' : i = bin
    · subst hi'
      rw [Function.update_self, List.mem_cons] at ha
      rcases ha with rfl | ha
      · exact ⟨c, hc, rfl⟩
      · exact h.placed i a ha
    · rw [Function.update_of_ne hi'] at ha
      exact h.placed i a ha
  · -- The pushed block was on no list before.
    have hcases : ∀ i a, a ∈ Function.update chains bin (c.addr :: chains bin) i →
        (a = c.addr ∧ i = bin) ∨ (a ≠ c.addr ∧ a ∈ chains i) := by
      intro i a ha
      by_cases hi' : i = bin
      · subst hi'
        rw [Function.update_self, List.mem_cons] at ha
        by_cases heq : a = c.addr
        · exact Or.inl ⟨heq, rfl⟩
        · exact Or.inr ⟨heq, ha.resolve_left heq⟩
      · rw [Function.update_of_ne hi'] at ha
        exact Or.inr ⟨fun heq => hoff i (heq ▸ ha), ha⟩
    intro i j a hai haj
    rcases hcases i a hai with ⟨heq, hbin⟩ | ⟨hne, hmemi⟩
    · rcases hcases j a haj with ⟨_, hbin'⟩ | ⟨hne', _⟩
      · rw [hbin, hbin']
      · exact absurd heq hne'
    · rcases hcases j a haj with ⟨heq', _⟩ | ⟨_, hmemj⟩
      · exact absurd heq' hne
      · exact h.apart i j a hmemi hmemj

/-- Taking a block off its list through the link that points at it. -/
theorem Threaded.unlink {s : Globals ι} (h : Threaded s.mem s.freeHead blocks chains)
    {bin : ι} {front back : List Nat} {a : Nat}
    (hchain : chains bin = front ++ a :: back) :
    Threaded
        (setLink s bin (Link.advance .head front) (nextFree s.mem a)).mem
        (setLink s bin (Link.advance .head front) (nextFree s.mem a)).freeHead
        blocks (Function.update chains bin (front ++ back)) ∧
      ∀ b ∈ blocks, b.addr ∉ front →
        SameOn s.mem (setLink s bin (Link.advance .head front) (nextFree s.mem a)).mem
          b.addr b.size := by
  have hlinked := h.linked bin
  rw [hchain] at hlinked
  -- What is left on the lists was on them before.
  have hsub : ∀ i d, d ∈ Function.update chains bin (front ++ back) i →
      d ∈ chains i := by
    intro i d hd
    by_cases hi' : i = bin
    · subst hi'
      rw [Function.update_self] at hd
      rw [hchain]
      simp only [List.mem_append, List.mem_cons] at hd ⊢
      tauto
    · rwa [Function.update_of_ne hi'] at hd
  have hplaced : ∀ i, ∀ d ∈ Function.update chains bin (front ++ back) i,
      ∃ b ∈ blocks, b.addr = d := fun i d hd => h.placed i d (hsub i d hd)
  have hapart : ∀ i j d, d ∈ Function.update chains bin (front ++ back) i →
      d ∈ Function.update chains bin (front ++ back) j → i = j :=
    fun i j d hdi hdj => h.apart i j d (hsub i d hdi) (hsub j d hdj)
  rcases List.eq_nil_or_concat' front with rfl | ⟨init, last, rfl⟩
  · -- The head itself is rewritten and the memory stays.
    refine ⟨⟨h.tagged, ?_, hplaced, hapart⟩, fun b _ _ => SameOn.refl _ _ _⟩
    intro i
    by_cases hi' : i = bin
    · subst hi'
      have hrest : Linked (nextFree s.mem) 0 (nextFree s.mem a) ([] ++ back) :=
        hlinked.unlink (fun _ _ _ => rfl) rfl (fun hne => absurd rfl hne)
      simpa [setLink, Link.advance] using hrest
    · simpa [setLink, Link.advance, hi'] using h.linked i
  · rw [Link.advance_concat]
    have hlast : last ∈ chains bin := by simp [hchain]
    obtain ⟨c, hc, hcl⟩ := h.placed bin last hlast
    have hcell := linkCell_lt hrow hhi hc
    have hmem : (setLink s bin (.after last) (nextFree s.mem a)).mem =
        store s.mem (c.addr + 4) 8 (nextFree s.mem a) := by
      rw [setLink, ← hcl, ptrAdd_of_lt hcell.2]
    have hsame : SameOutside s.mem
        (setLink s bin (.after last) (nextFree s.mem a)).mem (c.addr + 4) 8 := by
      rw [hmem]
      exact store_sameOutside _ _ _ _
    obtain ⟨htagged, hothers⟩ := h.of_linkCell hrow hhi hc hsame
    have hkeep : ∀ i, ∀ d ∈ chains i, d ≠ last →
        nextFree (setLink s bin (.after last) (nextFree s.mem a)).mem d =
          nextFree s.mem d := by
      intro i d hd hne
      obtain ⟨b, hb, rfl⟩ := h.placed i d hd
      exact (hothers b hb (by rw [hcl]; exact hne)).2
    refine ⟨⟨htagged, ?_, hplaced, hapart⟩, ?_⟩
    · intro i
      by_cases hi' : i = bin
      · subst hi'
        rw [Function.update_self]
        refine hlinked.unlink ?_ ?_ (fun _ => rfl)
        · intro d hd hne
          rw [Link.advance_concat] at hne
          refine hkeep i d ?_ fun heq => hne (congrArg Link.after heq.symm)
          rw [hchain]
          simp only [List.mem_append, List.mem_cons] at hd ⊢
          tauto
        · rw [Link.advance_concat]
          have hlt : nextFree s.mem a < 256 ^ 8 := load_lt _ _ _
          change nextFree (setLink s i (.after last) (nextFree s.mem a)).mem last =
            nextFree s.mem a
          rw [hmem, nextFree, ← hcl, ptrAdd_of_lt hcell.2, load_store_same,
            Nat.mod_eq_of_lt hlt]
      · rw [Function.update_of_ne hi']
        refine (h.linked i).congr fun d hd => hkeep i d hd ?_
        rintro rfl
        exact hi' (h.apart i bin d hd hlast)
    · intro b hb hoff
      refine (hothers b hb ?_).1
      rw [hcl]
      rintro rfl
      exact hoff (by simp)

end Row

/-- A block written behind the last one. -/
theorem Threaded.append {m m' : Memory} {heads : ι → Nat} {blocks : List Block}
    {chains : ι → List Nat} {d : Block} (h : Threaded m heads blocks chains)
    (hbelow : ∀ b ∈ blocks, b.addr + b.size ≤ d.addr) (hlt : d.addr < 2 ^ 64)
    (hsame : ∀ x, x < d.addr → m' x = m x) (htagged : d.Tagged m') :
    Threaded m' heads (blocks ++ [d]) chains := by
  have hframe : ∀ b ∈ blocks, SameOn m m' b.addr b.size := by
    intro b hb x _ hhi
    have := hbelow b hb
    exact hsame x (by omega)
  refine ⟨?_, ?_, ?_, h.apart⟩
  · intro b hb
    rw [List.mem_append, List.mem_singleton] at hb
    rcases hb with hb | rfl
    · exact (h.tagged b hb).congr (hframe b hb)
    · exact htagged
  · intro i
    refine (h.linked i).congr fun a ha => ?_
    obtain ⟨b, hb, rfl⟩ := h.placed i a ha
    have hge := b.size_ge
    have := hbelow b hb
    exact nextFree_congr (by omega) ((hframe b hb).mono (by omega) (by omega))
  · intro i a ha
    obtain ⟨b, hb, hba⟩ := h.placed i a ha
    exact ⟨b, by simp [hb], hba⟩

section Retag

variable {lo hi left right : Nat} {pre mid mid' post : List Block}
  {chains : ι → List Nat} {m m' : Memory} {heads : ι → Nat}

/-- Rewriting the tags inside a run of blocks.  The links of listed blocks of
the run must survive, and the blocks must stay in the row. -/
theorem Threaded.retag (h : Threaded m heads (pre ++ mid ++ post) chains)
    (hpre : Spread Block.addr Block.size lo pre left)
    (hmid : Spread Block.addr Block.size left mid right)
    (hpost : Spread Block.addr Block.size right post hi) (hhi : hi < 2 ^ 64)
    (hsame : ∀ x, (x < left ∨ right ≤ x) → m' x = m x)
    (htagged : ∀ b ∈ mid', b.Tagged m')
    (hkept : ∀ b ∈ mid, ∀ i, b.addr ∈ chains i →
      nextFree m' b.addr = nextFree m b.addr ∧ ∃ c ∈ mid', c.addr = b.addr) :
    Threaded m' heads (pre ++ mid' ++ post) chains ∧
      ∀ b ∈ pre ++ post, SameOn m m' b.addr b.size := by
  have hrow : Spread Block.addr Block.size lo (pre ++ mid ++ post) hi :=
    spread_append.mpr ⟨right, spread_append.mpr ⟨left, hpre, hmid⟩, hpost⟩
  have hframe : ∀ b ∈ pre ++ post, SameOn m m' b.addr b.size := by
    intro b hb x hlo hhi'
    rw [List.mem_append] at hb
    apply hsame
    rcases hb with hb | hb
    · have := hpre.bounds hb
      omega
    · have := hpost.bounds hb
      omega
  -- Every listed block keeps its link and is still in the row.
  have hlisted : ∀ i, ∀ a ∈ chains i, nextFree m' a = nextFree m a ∧
      ∃ c ∈ pre ++ mid' ++ post, c.addr = a := by
    intro i a ha
    obtain ⟨b, hb, rfl⟩ := h.placed i a ha
    have hcases : b ∈ mid ∨ b ∈ pre ++ post := by
      simp only [List.mem_append] at hb ⊢
      tauto
    rcases hcases with hin | hout
    · obtain ⟨hnext, c, hc, hca⟩ := hkept b hin i ha
      exact ⟨hnext, c, by simp [hc], hca⟩
    · have hcell := linkCell_lt hrow hhi hb
      refine ⟨nextFree_congr hcell.2 ((hframe b hout).mono (by omega) (by omega)), b, ?_, rfl⟩
      simp only [List.mem_append] at hout ⊢
      tauto
  refine ⟨⟨?_, ?_, ?_, h.apart⟩, hframe⟩
  · intro b hb
    have hcases : b ∈ mid' ∨ b ∈ pre ++ post := by
      simp only [List.mem_append] at hb ⊢
      tauto
    rcases hcases with hin | hout
    · exact htagged b hin
    · refine (h.tagged b ?_).congr (hframe b hout)
      simp only [List.mem_append] at hout ⊢
      tauto
  · exact fun i => (h.linked i).congr fun a ha => (hlisted i a ha).1
  · exact fun i a ha => (hlisted i a ha).2

/-- The memory with the tags of a used front part of `c` and of a free rest. -/
def cutTags (m : Memory) (c : Block) (need : Nat) : Memory :=
  setTags (setTags m c.addr (need + 1)) (c.addr + need) (c.size - need)

/-- Both parts are tagged, and between the tags of the front part nothing
changes. -/
theorem cutTags_spec (m : Memory) {c : Block} {need : Nat} (hge : 16 ≤ need)
    (hmod : need % 16 = 0) (hfit : need + 16 ≤ c.size)
    (hend : c.addr + c.size < 2 ^ 64) (hsize : c.size < 2 ^ 32) :
    (c.taken need hge hmod).Tagged (cutTags m c need) ∧
      (c.rest need hmod hfit).Tagged (cutTags m c need) ∧
      SameOutside m (cutTags m c need) c.addr c.size ∧
      SameOn m (cutTags m c need) (c.addr + 4) (need - 8) := by
  unfold cutTags
  generalize hc₁ : c.taken need hge hmod = c₁
  generalize hc₂ : c.rest need hmod hfit = c₂
  have haddr₁ : c₁.addr = c.addr := by rw [← hc₁]; rfl
  have hsize₁ : c₁.size = need := by rw [← hc₁]; rfl
  have hhead₁ : c₁.head = need + 1 := by rw [← hc₁]; rfl
  have haddr₂ : c₂.addr = c.addr + need := by rw [← hc₂]; rfl
  have hsize₂ : c₂.size = c.size - need := by rw [← hc₂]; rfl
  have hhead₂ : c₂.head = c.size - need := by rw [← hc₂]; rfl
  rw [← haddr₂, ← hhead₂, ← hhead₁, ← haddr₁]
  generalize hm₁ : setTags m c₁.addr c₁.head = m₁
  generalize hm₂ : setTags m₁ c₂.addr c₂.head = m₂
  have hsame₁ : ∀ x, (x < c₁.addr ∨ c₁.addr + 4 ≤ x) →
      (x < c₁.addr + c₁.size - 4 ∨ c₁.addr + c₁.size ≤ x) → m₁ x = m x := by
    intro x hx hx'
    rw [← hm₁]
    exact setTags_same m (by omega) (by omega) hx hx'
  have hsame₂ : SameOutside m₁ m₂ c₂.addr c₂.size := by
    rw [← hm₂]
    exact setTags_sameOutside m₁ (by omega) (by omega)
  refine ⟨?_, ?_, ?_, ?_⟩
  · have hfoot : c₁.foot = c₁.used := by rw [← hc₁]; rfl
    have hold : c₁.Tagged m₁ := by
      rw [← hm₁]
      exact setTags_tagged m (by omega) (by omega) hfoot
    exact hold.congr (hsame₂.sameOn (by omega))
  · have hfoot : c₂.foot = c₂.used := by rw [← hc₂]; rfl
    rw [← hm₂]
    exact setTags_tagged m₁ (by omega) (by omega) hfoot
  · intro x hx
    rw [hsame₂ x (by omega), hsame₁ x (by omega) (by omega)]
  · intro x hlo hhi
    rw [hsame₂ x (by omega), hsame₁ x (by omega) (by omega)]

/-- The front tags may also be written last: they touch neither the tags nor the
link of the rest. -/
theorem cutTags_reverse (m : Memory) {c : Block} {need : Nat} (hge : 16 ≤ need)
    (hmod : need % 16 = 0) (hfit : need + 16 ≤ c.size)
    (hend : c.addr + c.size < 2 ^ 64) (hsize : c.size < 2 ^ 32) (v : Nat) :
    setTags (store (setTags m (c.addr + need) (c.size - need)) (c.addr + need + 4) 8 v)
        c.addr (need + 1) =
      store (cutTags m c need) (c.addr + need + 4) 8 v := by
  generalize hc₁ : c.taken need hge hmod = c₁
  generalize hc₂ : c.rest need hmod hfit = c₂
  have haddr₁ : c₁.addr = c.addr := by rw [← hc₁]; rfl
  have hsize₁ : c₁.size = need := by rw [← hc₁]; rfl
  have hhead₁ : c₁.head = need + 1 := by rw [← hc₁]; rfl
  have haddr₂ : c₂.addr = c.addr + need := by rw [← hc₂]; rfl
  have hsize₂ : c₂.size = c.size - need := by rw [← hc₂]; rfl
  have hhead₂ : c₂.head = c.size - need := by rw [← hc₂]; rfl
  unfold cutTags
  rw [← haddr₂, ← hhead₂, ← hhead₁, ← haddr₁]
  have hstore := setTags_store_comm (k := 8) (a := c₂.addr + 4) (b := c₁)
    (setTags m c₂.addr c₂.head) (by omega) (by omega) v (by omega)
  have hswap := setTags_comm (b := c₁) m (by omega) (by omega) (c := c₂) (by omega)
    (by omega) (by omega)
  rw [hstore, hswap]

/-- Writing the tags of a used front part and of a free rest into one block.
The link of the block survives, since it lies before the new footer. -/
theorem Threaded.cut {c : Block} {need : Nat} (hge : 16 ≤ need) (hmod : need % 16 = 0)
    (hfit : need + 16 ≤ c.size) (h : Threaded m heads (pre ++ c :: post) chains)
    (hpre : Spread Block.addr Block.size lo pre c.addr)
    (hpost : Spread Block.addr Block.size (c.addr + c.size) post hi) (hhi : hi < 2 ^ 64)
    (hsize : c.size < 2 ^ 32) :
    Threaded (cutTags m c need) heads
        (pre ++ [c.taken need hge hmod, c.rest need hmod hfit] ++ post) chains ∧
      ∀ b ∈ pre ++ post, SameOn m (cutTags m c need) b.addr b.size := by
  have hend : c.addr + c.size < 2 ^ 64 := Nat.lt_of_le_of_lt hpost.le hhi
  obtain ⟨htagged₁, htagged₂, houtside, hinner⟩ := cutTags_spec m hge hmod hfit hend hsize
  have hmid : Spread Block.addr Block.size c.addr [c] (c.addr + c.size) :=
    ⟨Nat.le_refl _, Nat.le_refl _⟩
  refine Threaded.retag (by simpa using h) hpre hmid hpost hhi houtside ?_ ?_
  · simp [htagged₁, htagged₂]
  · intro b hb i _
    rw [List.mem_singleton] at hb
    subst hb
    refine ⟨?_, b.taken need hge hmod, by simp, rfl⟩
    exact nextFree_congr (by omega) (hinner.mono (by omega) (by omega))

/-- Writing both tags of a block anew. -/
theorem Threaded.retagOne {c d : Block} (h : Threaded m heads (pre ++ c :: post) chains)
    (hpre : Spread Block.addr Block.size lo pre c.addr)
    (hpost : Spread Block.addr Block.size (c.addr + c.size) post hi) (hhi : hi < 2 ^ 64)
    (hsize : c.size < 2 ^ 32) (haddr : d.addr = c.addr) (hsize' : d.size = c.size)
    (hfoot : d.foot = d.used) :
    Threaded (setTags m c.addr d.head) heads (pre ++ [d] ++ post) chains ∧
      ∀ b ∈ pre ++ post, SameOn m (setTags m c.addr d.head) b.addr b.size := by
  have hend : c.addr + c.size < 2 ^ 64 := by
    have := hpost.le
    omega
  have hge := c.size_ge
  rw [← haddr]
  have hsame : ∀ x, (x < d.addr ∨ d.addr + 4 ≤ x) →
      (x < d.addr + d.size - 4 ∨ d.addr + d.size ≤ x) →
      setTags m d.addr d.head x = m x :=
    fun x hx hx' => setTags_same m (by omega) (by omega) hx hx'
  have hinner : SameOn m (setTags m d.addr d.head) (d.addr + 4) (c.size - 8) :=
    fun x hlo hhi' => hsame x (by omega) (by omega)
  have hmid : Spread Block.addr Block.size c.addr [c] (c.addr + c.size) :=
    ⟨Nat.le_refl _, Nat.le_refl _⟩
  refine Threaded.retag (by simpa using h) hpre hmid hpost hhi ?_ ?_ ?_
  · exact fun x hx => hsame x (by omega) (by omega)
  · simpa using setTags_tagged m (by omega) (by omega) hfoot
  · intro b hb i _
    rw [List.mem_singleton] at hb
    subst hb
    refine ⟨?_, d, by simp, haddr⟩
    exact nextFree_congr (by omega) (hinner.mono (by omega) (by omega))

/-- The two parts of a cut block tile its interval. -/
theorem tiles_cut {c : Block} {need : Nat} (hge : 16 ≤ need) (hmod : need % 16 = 0)
    (hfit : need + 16 ≤ c.size) :
    Tiles Block.addr Block.size c.addr [c.taken need hge hmod, c.rest need hmod hfit]
      (c.addr + c.size) := by
  refine ⟨rfl, rfl, ?_⟩
  simp only [Tiles, Block.taken, Block.rest, Block.fresh]
  omega

end Retag

end AllocSitter
