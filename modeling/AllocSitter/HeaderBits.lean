/-
The flags of headers.  Every header is at 12 modulo 16, a footer at 8 and a link at 0, so
neither of them reaches the low byte of a header, not even of one that no block has any
more.  What is written to a header carries a flag only if the block is handed out.
-/
import AllocSitter.StaleTags

namespace AllocSitter

open ByteMemory LinkedChain

/-- Between two memories no flag has been raised at a header place for which `off` holds. -/
def Quiet (off : Nat → Prop) (m m' : Memory) : Prop :=
  ∀ a, a % 16 = 12 → off a → (m a).toNat % 2 = 0 → (m' a).toNat % 2 = 0

variable {ι : Type} {off : Nat → Prop} {m m' m'' : Memory}

theorem Quiet.refl (off : Nat → Prop) (m : Memory) : Quiet off m m :=
  fun _ _ _ heven => heven

theorem Quiet.trans (h : Quiet off m m') (h' : Quiet off m' m'') : Quiet off m m'' :=
  fun a hmod hoff heven => h' a hmod hoff (h a hmod hoff heven)

/-- The flag of a header is in its low byte. -/
theorem load_flag (m : Memory) (a : Nat) : load m a 4 % 2 = (m a).toNat % 2 := by
  simp only [load]
  omega

/-- A change of bytes that are no header places for which `off` holds. -/
theorem Quiet.of_sameOutside {addr len : Nat} (h : SameOutside m m' addr len)
    (hout : ∀ a, a % 16 = 12 → off a → a < addr ∨ addr + len ≤ a) : Quiet off m m' := by
  intro a hmod hoff heven
  rw [h a (hout a hmod hoff)]
  exact heven

/-- A store that ends below the next header place. -/
theorem Quiet.store_below (off : Nat → Prop) (m : Memory) {addr width : Nat} (value : Nat)
    (hbelow : addr % 16 + width ≤ 12) : Quiet off m (store m addr width value) := by
  apply Quiet.of_sameOutside (store_sameOutside m addr width value)
  intro a hmod _
  omega

theorem Quiet.store_header (m : Memory) {header value : Nat} (hmod : header % 16 = 12)
    (heven : off header → value % 2 = 0) : Quiet off m (store m header 4 value) := by
  intro a hmod' hoff hbefore
  by_cases ha : a = header
  · subst ha
    have hvalue := heven hoff
    have hbyte : (store m a 4 value a).toNat = value % 256 := by simp [store]
    omega
  · rw [store_sameOutside m header 4 value a (by omega)]
    exact hbefore

theorem Quiet.fill_zero (off : Nat → Prop) (m : Memory) (addr len : Nat) :
    Quiet off m (fill m addr len 0) := by
  intro a _ _ heven
  unfold fill
  split
  · rfl
  · exact heven

/-- Tags carry a flag to the header only. -/
theorem Quiet.setTags (h : Quiet off m m') {header tag : Nat} (hmod : header % 16 = 12)
    (heven : off header → tag % 2 = 0) : Quiet off m (setTags m' header tag) := by
  have hhead : Quiet off m' (store m' header 4 (tag % 2 ^ 32)) := by
    apply Quiet.store_header m' hmod
    intro hoff
    have := heven hoff
    omega
  apply (h.trans hhead).trans
  apply Quiet.store_below
  unfold ptrSub ptrAdd tagSize
  omega

/-- The link is that to the first node or the one in a node at a header place. -/
def LinkPlaced : Link Nat → Prop
  | .head => True
  | .after header => header % 16 = 12

theorem walk_placed {next : Nat → Nat} {first : Nat} {stop : Nat → Bool} {nodes : List Nat}
    (hnodes : ∀ node ∈ nodes, node % 16 = 12) {fuel steps steps' : Nat} {link link' : Link Nat}
    (h : Linked next 0 (link.target next first) nodes) (hlink : LinkPlaced link)
    (hwalk : walk next 0 first stop fuel link steps = some (steps', some link')) :
    LinkPlaced link' := by
  induction nodes generalizing fuel steps link with
  | nil =>
      cases fuel with
      | zero => simp [walk] at hwalk
      | succ fuel => simp [walk, linked_nil.mp h] at hwalk
  | cons node rest ih =>
      rw [linked_cons] at h
      cases fuel with
      | zero => simp [walk] at hwalk
      | succ fuel =>
          simp only [walk, h.1, h.2.1, ↓reduceIte] at hwalk
          by_cases hstop : stop node = true
          · rw [if_pos hstop] at hwalk
            obtain ⟨_, heq⟩ := Prod.mk.inj (Option.some.inj hwalk)
            rw [← Option.some.inj heq]
            exact hlink
          · rw [if_neg hstop] at hwalk
            have hrest : ∀ other ∈ rest, other % 16 = 12 :=
              fun other hother => hnodes other (List.mem_cons_of_mem node hother)
            have hnode : LinkPlaced (.after node) := hnodes node List.mem_cons_self
            have htail : Linked next 0 ((Link.after node).target next first) rest := h.2.2
            exact ih hrest htail hnode hwalk

/-- Every node of list `bin` is at a header place. -/
def ListPlaced (s : Globals ι) (bin : ι) : Prop :=
  ∃ nodes, Linked (nextFree s.mem) 0 (s.freeHead bin) nodes ∧ ∀ node ∈ nodes, node % 16 = 12

theorem ListPlaced.link {s : Globals ι} {bin : ι} (h : ListPlaced s bin) {stop : Nat → Bool}
    {fuel steps steps' : Nat} {link : Link Nat}
    (hwalk : walk (nextFree s.mem) 0 (s.freeHead bin) stop fuel .head steps =
      some (steps', some link)) : LinkPlaced link := by
  obtain ⟨nodes, hlinked, hplaced⟩ := h
  exact @walk_placed _ _ _ nodes hplaced _ _ _ .head _ hlinked trivial hwalk

theorem ListPlaced.of_blocks {s : Globals ι} {bin : ι} {blocks list : List Block}
    (harena : ArenaShape s blocks)
    (hlinked : Linked (nextFree s.mem) 0 (s.freeHead bin) (list.map Block.addr))
    (hsub : ∀ b ∈ list, b ∈ blocks) : ListPlaced s bin := by
  refine ⟨_, hlinked, fun node hnode => ?_⟩
  obtain ⟨b, hb, rfl⟩ := List.mem_map.mp hnode
  exact harena.addr_mod (hsub b hb)

section Lists

variable [DecidableEq ι] (s : Globals ι) (bin : ι)

theorem Quiet.setLink (h : Quiet off m s.mem) {link : Link Nat} (hlink : LinkPlaced link)
    (value : Nat) : Quiet off m (setLink s bin link value).mem := by
  cases link with
  | head => exact h
  | after header =>
      have hmod : header % 16 = 12 := hlink
      apply h.trans
      apply Quiet.store_below
      unfold ptrAdd
      omega

theorem Quiet.freelistPush (h : Quiet off m s.mem) {header : Nat} (hmod : header % 16 = 12) :
    Quiet off m (freelistPush s header bin).mem := by
  apply h.trans
  apply Quiet.store_below
  unfold ptrAdd
  omega

variable {s bin}

theorem RepresentsIn.listPlaced {binOf : Nat → ι} {L : Layout ι} (h : Represents binOf s L)
    (bin : ι) : ListPlaced s bin :=
  .of_blocks h.arena (h.threaded.linked bin) fun _ hb => (h.binned.mem_iff.mp hb).1

theorem HeldIn.listPlaced {binOf : Nat → ι} {lists : ι → List Block}
    {pre mid post : List Block} (h : Held binOf s lists pre mid post) (bin : ι) :
    ListPlaced s bin :=
  .of_blocks h.arena (h.threaded.linked bin) fun _ hb =>
    mem_row_of_mem (h.binned.mem_iff.mp hb).1

end Lists

section Malloc

variable {account : Nat → AllocStat → AllocStat} {mmap : Mmap} {s s' : Globals ι} {p : Nat}

theorem arenaExtend_quiet (off : Nat → Prop) (mmap : Mmap) (s : Globals ι) (n : Nat) :
    Quiet off s.mem (arenaExtend mmap s n).1.mem := by
  have hbreak : ∀ s : Globals ι, (moveBreak s n).1.mem = s.mem := by
    intro s
    unfold moveBreak
    split
    · rfl
    · split <;> rfl
  unfold arenaExtend
  split
  · split
    · exact .refl _ _
    · rw [hbreak]
      exact Quiet.fill_zero off s.mem _ _
  · rw [hbreak]
    exact .refl _ _

theorem header_mod {header : Nat} (h : ptrAdd header 4 % 16 = 0) : header % 16 = 12 := by
  unfold ptrAdd at h
  omega

/-- The new block has its header at a header place if its payload is aligned. -/
theorem extendHeap_quiet {need : Nat} (hcall : extendHeap account mmap s need = (s', p))
    (hmod : p % 16 = 0) (hnew : ∀ a, off a → ptrAdd a 4 ≠ p) : Quiet off s.mem s'.mem := by
  have hasked : ∀ (s : Globals ι) (n : Nat), Quiet off s.mem (arenaExtend mmap s n).1.mem :=
    arenaExtend_quiet off mmap
  unfold extendHeap at hcall
  dsimp only at hcall
  have hfirst := hasked s 0
  generalize arenaExtend mmap s 0 = first at hcall hfirst
  have hsecond := hasked first.1 (ptrAdd need (ptrSub 12 first.2 % 16))
  generalize arenaExtend mmap first.1 (ptrAdd need (ptrSub 12 first.2 % 16)) = second
    at hcall hsecond
  have hthird := hasked second.1 0
  generalize arenaExtend mmap second.1 0 = third at hcall hthird
  have hpath : Quiet off s.mem third.1.mem := hfirst.trans (hsecond.trans hthird)
  split at hcall
  · obtain ⟨rfl, _⟩ := Prod.mk.inj hcall
    exact hpath
  · obtain ⟨rfl, rfl⟩ := Prod.mk.inj hcall
    split
    · exact hpath.setTags (header_mod hmod) fun hoff => absurd rfl (hnew _ hoff)
    · exact hpath.setTags (header_mod hmod) fun hoff => absurd rfl (hnew _ hoff)

variable [DecidableEq ι] {binOf : Nat → ι}

theorem splitBlock_quiet {bin : ι} {link : Link Nat} {h chunk need : Nat}
    (hcall : splitBlock binOf account s bin link h chunk need = (s', p))
    (hlink : LinkPlaced link) (hchunk : chunk % 16 = 0) (hneed : need % 16 = 0)
    (hmod : p % 16 = 0) (hnew : ∀ a, off a → ptrAdd a 4 ≠ p) : Quiet off s.mem s'.mem := by
  obtain ⟨rfl, rfl⟩ := Prod.mk.inj hcall
  have hrest : ptrAdd h need % 16 = 12 := by
    have hhead := header_mod hmod
    unfold ptrAdd
    omega
  have heven : ptrSub chunk need % 2 = 0 := by
    unfold ptrSub
    omega
  have htags : Quiet off s.mem (setTags s.mem h (need ||| 1)) :=
    (Quiet.refl off s.mem).setTags (header_mod hmod) fun hoff => absurd rfl (hnew h hoff)
  exact ((htags.setTags hrest fun _ => heven).setLink _ bin hlink _).freelistPush _ _ hrest

theorem wholeBlock_quiet {bin : ι} {link : Link Nat} {h chunk : Nat}
    (hcall : wholeBlock account s bin link h chunk = (s', p)) (hlink : LinkPlaced link)
    (hmod : p % 16 = 0) (hnew : ∀ a, off a → ptrAdd a 4 ≠ p) : Quiet off s.mem s'.mem := by
  obtain ⟨rfl, rfl⟩ := Prod.mk.inj hcall
  have htags : Quiet off s.mem (setTags s.mem h (chunk ||| 1)) :=
    (Quiet.refl off s.mem).setTags (header_mod hmod) fun hoff => absurd rfl (hnew h hoff)
  exact htags.setLink _ bin hlink _

/-- `my_malloc` raises the flag of the block that it returns and no other. -/
theorem mallocWith_quiet {size : Nat}
    (hcall : mallocWith binOf account mmap s size = some (s', p))
    (hplaced : ListPlaced s (binOf (chunkNeed size))) (hmod : p % 16 = 0)
    (hnew : ∀ a, off a → ptrAdd a 4 ≠ p) : Quiet off s.mem s'.mem := by
  have hneed : chunkNeed size % 16 = 0 := by
    unfold chunkNeed tagSize
    omega
  cases hwalk : walk (nextFree s.mem) 0 (s.freeHead (binOf (chunkNeed size)))
      (fits s.mem (chunkNeed size)) walkFuel .head 0 with
  | none => simp [mallocWith, hwalk] at hcall
  | some result =>
      obtain ⟨steps, found⟩ := result
      cases found with
      | some link =>
          have hlink := hplaced.link hwalk
          simp only [mallocWith, hwalk] at hcall
          split at hcall
          · have hsplit := splitBlock_quiet (Option.some.inj hcall) hlink
              (Nat.mul_mod_left _ 16) hneed hmod hnew
            exact hsplit
          · have hwhole := wholeBlock_quiet (Option.some.inj hcall) hlink hmod hnew
            exact hwhole
      | none =>
          simp only [mallocWith, hwalk] at hcall
          have hextend := extendHeap_quiet (Option.some.inj hcall) hmod hnew
          exact hextend

theorem callocWith_quiet {nmemb size : Nat}
    (hcall : callocWith (mallocWith binOf account mmap) s nmemb size = some (s', p))
    (hplaced : ∀ bin, ListPlaced s bin) (hmod : p % 16 = 0)
    (hnew : ∀ a, off a → ptrAdd a 4 ≠ p) : Quiet off s.mem s'.mem := by
  unfold callocWith at hcall
  split at hcall
  · obtain ⟨rfl, _⟩ := Prod.mk.inj (Option.some.inj hcall)
    exact .refl _ _
  · split at hcall
    · obtain ⟨rfl, _⟩ := Prod.mk.inj (Option.some.inj hcall)
      exact .refl _ _
    · obtain ⟨⟨s₁, p₁⟩, hmalloc, hrest⟩ := Option.bind_eq_some_iff.mp hcall
      dsimp only at hrest
      split at hrest
      · obtain ⟨rfl, rfl⟩ := Prod.mk.inj (Option.some.inj hrest)
        exact mallocWith_quiet hmalloc (hplaced _) hmod hnew
      · obtain ⟨rfl, rfl⟩ := Prod.mk.inj (Option.some.inj hrest)
        apply (mallocWith_quiet hmalloc (hplaced _) hmod hnew).trans
        exact Quiet.fill_zero _ _ _ _

end Malloc

namespace FirstFit

variable {mmap : Mmap} {s s' : State} {L : Layout Unit} {c : Block}

theorem freelistRemove_quiet (off : Nat → Prop) {header : Nat} (hplaced : ListPlaced s ())
    (hcall : freelistRemove s header = some s') : Quiet off s.mem s'.mem := by
  unfold freelistRemove at hcall
  cases hwalk : walk (nextFree s.mem) 0 (s.freeHead ()) (· == header) walkFuel .head 0 with
  | none =>
      rw [hwalk] at hcall
      simp at hcall
  | some result =>
      obtain ⟨steps, found⟩ := result
      rw [hwalk] at hcall
      cases found with
      | none =>
          rw [← Option.some.inj hcall]
          exact .refl _ _
      | some link =>
          rw [← Option.some.inj hcall]
          have hlink := hplaced.link hwalk
          exact Quiet.setLink { s with stat.removeSteps := ptrAdd s.stat.removeSteps steps } ()
            (.refl off s.mem) hlink _

theorem mergeRight_quiet (off : Nat → Prop) {header : Nat} (hplaced : ListPlaced s ())
    (hmod : header % 16 = 12) (hcall : mergeRight s header = some s') :
    Quiet off s.mem s'.mem := by
  rw [mergeRight_eq] at hcall
  cases hright : rightRemoved s header with
  | none =>
      rw [hright] at hcall
      rw [← Option.some.inj hcall]
      exact .refl _ _
  | some right =>
      rw [hright] at hcall
      obtain ⟨s₁, hremove, rfl⟩ := Option.map_eq_some_iff.mp hcall
      apply (freelistRemove_quiet off hplaced hremove).setTags hmod
      intro _
      unfold tagSize
      omega

theorem mergeLeft_quiet (off : Nat → Prop) {header : Nat} (hplaced : ListPlaced s ())
    (hmod : header % 16 = 12) (hcall : mergeLeft s header = some s') :
    Quiet off s.mem s'.mem := by
  rw [mergeLeft_eq] at hcall
  cases hleft : leftRemoved s header with
  | none =>
      rw [hleft] at hcall
      rw [← Option.some.inj hcall]
      exact (Quiet.refl off s.mem).freelistPush s () hmod
  | some left =>
      have hmod' : left % 16 = 12 := by
        simp only [leftRemoved, Option.ite_none_right_eq_some, Option.some.injEq] at hleft
        rw [← hleft.2]
        unfold ptrAdd ptrSub tagSize
        omega
      rw [hleft] at hcall
      obtain ⟨s₁, hremove, rfl⟩ := Option.map_eq_some_iff.mp hcall
      apply Quiet.freelistPush _ _ _ hmod'
      apply (freelistRemove_quiet off hplaced hremove).setTags hmod'
      intro _
      unfold tagSize
      omega

/-- `my_free` of a live block raises no flag, and the one of the block is down afterwards,
wherever the merges have left its header. -/
theorem myFree_quiet (off : Nat → Prop) (h : Represents theList s L)
    (hc : c ∈ Layout.usedBlocks L.blocks) (hcall : myFree s c.payload = some s') :
    Quiet off s.mem s'.mem ∧ (s'.mem c.addr).toNat % 2 = 0 := by
  obtain ⟨hrow, hused⟩ := Layout.mem_usedBlocks.mp hc
  obtain ⟨pre, post, hblocks⟩ := List.append_of_mem hrow
  have hmod := h.arena.addr_mod hrow
  have hflag := (h.threaded.tagged c hrow).not_clear hused
  obtain ⟨hheld, _⟩ := (h.held hblocks hused).release hused
  obtain ⟨s₁, c₁, post', list₁, hright, _, hheld₁, _, _⟩ := mergeRight_spec hheld
  have hleft : mergeLeft s₁ c.addr = some s' := by
    simp only [myFree, h.payload_ne_zero hc, ↓reduceIte, h.header_eq hrow, hflag] at hcall
    rw [show c.release.addr = c.addr from rfl] at hright
    rwa [hright] at hcall
  have hcleared : load s.mem c.addr 4 / 2 * 2 % 2 = 0 := Nat.mul_mod_left _ 2
  have hmerged : ∀ off : Nat → Prop,
      Quiet off (store s.mem c.addr 4 (load s.mem c.addr 4 / 2 * 2)) s'.mem := fun off =>
    (mergeRight_quiet off (hheld.listPlaced ()) hmod hright).trans
      (mergeLeft_quiet off (hheld₁.listPlaced ()) hmod hleft)
  constructor
  · exact (Quiet.store_header s.mem hmod fun _ => hcleared).trans (hmerged off)
  · apply hmerged (fun _ => True) c.addr hmod trivial
    rw [← load_flag, load_store_same]
    omega

theorem header_of_aligned {ptr : Nat} (h : ptr % 16 = 0) : ptrSub ptr 4 % 16 = 12 := by
  unfold ptrSub
  omega

theorem ptrAdd_aligned {ptr n : Nat} (hptr : ptr % 16 = 0) (hn : n % 16 = 0) :
    ptrAdd ptr n % 16 = 0 := by
  unfold ptrAdd
  omega

theorem shrinkInPlace_quiet {ptr oldSize newSize q : Nat}
    (hcall : shrinkInPlace s ptr oldSize newSize = (s', q)) (hptr : ptr % 16 = 0)
    (hold : oldSize % 16 = 0) (hnew : newSize % 16 = 0) (hoff : ¬ off (ptrSub ptr 4)) :
    Quiet off s.mem s'.mem := by
  unfold shrinkInPlace at hcall
  dsimp only at hcall
  split at hcall
  · obtain ⟨rfl, _⟩ := Prod.mk.inj hcall
    have hhead := header_of_aligned hptr
    have hrest := header_of_aligned (ptrAdd_aligned hptr hnew)
    have htags : Quiet off s.mem (setTags s.mem (ptrSub ptr 4) (newSize ||| 1)) :=
      (Quiet.refl off s.mem).setTags hhead fun hyes => absurd hyes hoff
    exact (htags.setTags hrest fun _ => by omega).freelistPush _ _ hrest
  · obtain ⟨rfl, _⟩ := Prod.mk.inj hcall
    exact .refl _ _

theorem growInPlace_quiet {ptr oldSize newSize right q : Nat}
    (hcall : growInPlace s ptr oldSize newSize right = some (s', q))
    (hplaced : ListPlaced s ()) (hptr : ptr % 16 = 0) (hold : oldSize % 16 = 0)
    (hnew : newSize % 16 = 0) (hright : load s.mem right 4 % 2 = 0)
    (hoff : ¬ off (ptrSub ptr 4)) : Quiet off s.mem s'.mem := by
  have hhead := header_of_aligned hptr
  have hrest := header_of_aligned (ptrAdd_aligned hptr hnew)
  obtain ⟨s₁, hremove, hresult⟩ := Option.bind_eq_some_iff.mp hcall
  have hremoved := freelistRemove_quiet off hplaced hremove
  split at hresult
  · obtain ⟨rfl, _⟩ := Prod.mk.inj (Option.some.inj hresult)
    apply Quiet.setTags _ hhead fun hyes => absurd hyes hoff
    apply Quiet.freelistPush _ _ _ hrest
    exact hremoved.setTags hrest fun _ => by omega
  · obtain ⟨rfl, _⟩ := Prod.mk.inj (Option.some.inj hresult)
    exact hremoved.setTags hhead fun hyes => absurd hyes hoff

theorem shrinkInPlace_returns {ptr oldSize newSize q : Nat}
    (hcall : shrinkInPlace s ptr oldSize newSize = (s', q)) : q = ptr := by
  unfold shrinkInPlace at hcall
  dsimp only at hcall
  split at hcall
  · exact (Prod.mk.inj hcall).2.symm
  · exact (Prod.mk.inj hcall).2.symm

theorem growInPlace_returns {ptr oldSize newSize right q : Nat}
    (hcall : growInPlace s ptr oldSize newSize right = some (s', q)) : q = ptr := by
  obtain ⟨s₁, _, hresult⟩ := Option.bind_eq_some_iff.mp hcall
  split at hresult
  · exact (Prod.mk.inj (Option.some.inj hresult)).2.symm
  · exact (Prod.mk.inj (Option.some.inj hresult)).2.symm

/-- A move: `hnew` and `hcopied` keep the places that matter off the new block.  The old block
is freed. -/
theorem moveBlock_quiet {pre post : List Block} {newSize q : Nat} (h : Represents theList s L)
    (hblocks : L.blocks = pre ++ c :: post) (hused : c.used = true) (hsound : mmap.Sound)
    (hmod : newSize % 16 = 0) (hlt : newSize + 40 ≤ 2 ^ 64) (hgrow : c.size < newSize)
    (hsafe : RequestSafe theList mmap s newSize)
    (hcall : moveBlock mmap s c.payload c.size newSize = some (s', q)) (hq : q % 16 = 0)
    (hnew : ∀ a, off a → ptrAdd a 4 ≠ q)
    (hcopied : ∀ a, off a → q ≠ 0 → a < q ∨ q + (c.size - 8) ≤ a) :
    Quiet off s.mem s'.mem ∧ (q ≠ 0 → (s'.mem c.addr).toNat % 2 = 0) := by
  have hge := c.size_ge
  have hplaced := h.listPlaced ()
  obtain ⟨_, _, hlt', _⟩ := h.room.bounds (show c ∈ L.blocks by simp [hblocks])
  obtain ⟨s₁, p, L₁, hmalloc, _, _, _, hmoved⟩ :=
    copied_spec h hblocks hused hsound hmod hlt hgrow hsafe
  by_cases hp : p = 0
  · simp only [moveBlock, hmalloc, Option.bind_eq_bind, Option.bind_some, hp, ↓reduceIte] at hcall
    obtain ⟨rfl, rfl⟩ := Prod.mk.inj (Option.some.inj hcall)
    exact ⟨mallocWith_quiet (hp ▸ hmalloc) hplaced hq hnew, fun hq => absurd rfl hq⟩
  · obtain ⟨u, rfl, _, _, hc₁, _, hrep, _⟩ := hmoved hp
    have hlen : ptrSub c.size 8 = c.size - 8 := ptrSub_of_le (by omega) (by omega)
    simp only [moveBlock, hmalloc, Option.bind_eq_bind, Option.bind_some, hp, ↓reduceIte,
      hlen] at hcall
    obtain ⟨s₂, hfree, hresult⟩ := Option.bind_eq_some_iff.mp hcall
    obtain ⟨rfl, rfl⟩ := Prod.mk.inj (Option.some.inj hresult)
    have hcopy : Quiet off s₁.mem (copy s₁.mem u.payload c.payload (c.size - 8)) := by
      apply Quiet.of_sameOutside (copy_sameOutside _ _ _ _)
      intro a _ hoff
      exact hcopied a hoff hp
    obtain ⟨hfreed, hclear⟩ := myFree_quiet off hrep hc₁ hfree
    exact ⟨(mallocWith_quiet hmalloc hplaced hq hnew).trans (hcopy.trans hfreed), fun _ => hclear⟩

/-- `my_realloc` of a live block to a nonzero size. -/
theorem resizeBlock_quiet {newSize q : Nat} (h : Represents theList s L)
    (hc : c ∈ Layout.usedBlocks L.blocks) (hsound : mmap.Sound) (hmod : newSize % 16 = 0)
    (hlt : newSize + 40 ≤ 2 ^ 64)
    (hsafe : moves s c.payload newSize = true → RequestSafe theList mmap s newSize)
    (hcall : resizeBlock mmap s c.payload newSize = some (s', q)) (hq : q % 16 = 0)
    (hnew : ∀ a, off a → ptrAdd a 4 ≠ q)
    (hcopied : moves s c.payload newSize = true →
      ∀ a, off a → q ≠ 0 → a < q ∨ q + (c.size - 8) ≤ a) :
    Quiet off s.mem s'.mem ∧
      (q ≠ 0 → q ≠ c.payload → (s'.mem c.addr).toNat % 2 = 0) := by
  obtain ⟨hrow, hused⟩ := Layout.mem_usedBlocks.mp hc
  obtain ⟨pre, post, hblocks⟩ := List.append_of_mem hrow
  obtain ⟨_, hhigh, _, hcur, _⟩ := h.room.bounds hrow
  have hge := c.size_ge
  have haddr := h.arena.addr_mod hrow
  have hptr : c.payload % 16 = 0 := by
    unfold Block.payload
    omega
  have htag := (h.threaded.tagged c hrow).tagSize_head
  -- In place the block returned is the block itself.
  have hself : q = c.payload → ¬ off (ptrSub c.payload 4) := by
    intro heq hoff
    rw [h.header_eq hrow] at hoff
    apply hnew c.addr hoff
    rw [heq, ptrAdd_of_lt (by omega)]
    rfl
  rw [resizeBlock_eq] at hcall
  dsimp only at hcall
  rw [h.header_eq hrow, htag] at hcall
  by_cases hmoves : moves s c.payload newSize = true
  · rw [if_pos hmoves] at hcall
    obtain ⟨hgrow, _⟩ := (moves_iff h hblocks hused).mp hmoves
    obtain ⟨hquiet, hclear⟩ := moveBlock_quiet h hblocks hused hsound hmod hlt hgrow
      (hsafe hmoves) hcall hq hnew (hcopied hmoves)
    exact ⟨hquiet, fun hq _ => hclear hq⟩
  · rw [if_neg hmoves] at hcall
    cases hgrowth : growthRemoved s c.payload newSize with
    | none =>
        rw [hgrowth] at hcall
        have hpair := Option.some.inj hcall
        have hplace := shrinkInPlace_returns hpair
        exact ⟨shrinkInPlace_quiet hpair hptr c.size_mod hmod (hself hplace),
          fun _ hne => absurd hplace hne⟩
    | some right =>
        rw [hgrowth] at hcall
        have heven : load s.mem right 4 % 2 = 0 := by
          simp only [growthRemoved, Option.ite_none_right_eq_some, Option.some.injEq] at hgrowth
          rw [← hgrowth.2]
          exact hgrowth.1.2.2.1
        have hplace := growInPlace_returns hcall
        exact ⟨growInPlace_quiet hcall (h.listPlaced ()) hptr c.size_mod hmod heven
          (hself hplace), fun _ hne => absurd hplace hne⟩

end FirstFit

end AllocSitter
