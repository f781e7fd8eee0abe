/-
The calls of `freelist_remove` in `allocator.c`.  Header and footer of a free block may
disagree, but only in one direction, so each call is given a block of the list.
-/
import AllocSitter.HeapShape

namespace AllocSitter

namespace FirstFit

open ByteMemory LinkedChain Tiling

/-- The header that the first merge of `my_free` passes to `freelist_remove`. -/
def rightRemoved (s : State) (header : Nat) : Option Nat :=
  let rightHeader := ptrAdd header (tagSize (load s.mem header 4))
  if rightHeader < s.heapHi ∧ load s.mem rightHeader 4 % 2 = 0 then some rightHeader else none

/-- The header that the second merge of `my_free` passes to `freelist_remove`. -/
def leftRemoved (s : State) (header : Nat) : Option Nat :=
  let leftFooter := ptrSub header 4
  let leftSize := tagSize (load s.mem leftFooter 4)
  if leftFooter > s.heapLo ∧ load s.mem leftFooter 4 % 2 = 0 then
    some (ptrAdd (ptrSub leftFooter leftSize) 4)
  else none

/-- The header that growth in place passes to `freelist_remove`. -/
def growthRemoved (s : State) (ptr newSize : Nat) : Option Nat :=
  let oldSize := tagSize (load s.mem (ptrSub ptr 4) 4)
  let rightHeader := ptrAdd (ptrSub ptr 4) oldSize
  if newSize > oldSize ∧ rightHeader < s.heapHi ∧ load s.mem rightHeader 4 % 2 = 0 ∧
      oldSize + tagSize (load s.mem rightHeader 4) ≥ newSize then some rightHeader
  else none

theorem mergeRight_eq (s : State) (header : Nat) :
    mergeRight s header = (rightRemoved s header).elim (some s) fun right =>
      (freelistRemove s right).map fun s' => { s' with
        mem := setTags s'.mem header
          (tagSize (load s.mem header 4) + tagSize (load s'.mem right 4)) } := by
  unfold mergeRight rightRemoved
  dsimp only
  split
  · exact (Option.map_eq_bind ..).symm
  · rfl

theorem mergeLeft_eq (s : State) (header : Nat) :
    mergeLeft s header = (leftRemoved s header).elim (some (freelistPush s header ()))
      fun left => (freelistRemove s left).map fun s' => freelistPush { s' with
        mem := setTags s'.mem left
          (tagSize (load s'.mem header 4) + tagSize (load s'.mem left 4)) } left () := by
  unfold mergeLeft leftRemoved
  dsimp only
  split
  · exact (Option.map_eq_bind ..).symm
  · rfl

theorem resizeBlock_eq (mmap : Mmap) (s : State) (ptr newSize : Nat) :
    resizeBlock mmap s ptr newSize =
      let oldSize := tagSize (load s.mem (ptrSub ptr 4) 4)
      if moves s ptr newSize then moveBlock mmap s ptr oldSize newSize
      else (growthRemoved s ptr newSize).elim (some (shrinkInPlace s ptr oldSize newSize))
        fun right => growInPlace s ptr oldSize newSize right := by
  unfold resizeBlock moves growthRemoved
  dsimp only
  by_cases hgrow : newSize > tagSize (load s.mem (ptrSub ptr 4) 4)
  · rw [if_pos hgrow]
    split
    · next hguard => simp [hgrow, hguard]
    · next hguard => simp [hgrow, hguard]
  · simp [hgrow]

/-- The calls of `freelist_remove` in `my_free`, each with the state in which it is made. -/
def freeRemovals (s : State) (ptr : Nat) : List (State × Nat) :=
  if ptr = 0 then []
  else
    let header := ptrSub ptr 4
    if load s.mem header 4 % 2 = 0 then []
    else
      let s := { s with mem := store s.mem header 4 (load s.mem header 4 / 2 * 2) }
      ((rightRemoved s header).toList.map fun right => (s, right)) ++
        (mergeRight s header).toList.flatMap fun s =>
          (leftRemoved s header).toList.map fun left => (s, left)

/-- The calls of `freelist_remove` in `my_realloc` of a block to a nonzero size. -/
def resizeRemovals (mmap : Mmap) (s : State) (ptr newSize : Nat) : List (State × Nat) :=
  if moves s ptr newSize then
    (myMalloc mmap s newSize).toList.flatMap fun result =>
      if result.2 = 0 then []
      else
        let oldSize := tagSize (load s.mem (ptrSub ptr 4) 4)
        freeRemovals { result.1 with
          mem := copy result.1.mem result.2 ptr (ptrSub oldSize 8) } ptr
  else (growthRemoved s ptr newSize).toList.map fun right => (s, right)

/-- The calls of `freelist_remove` that a call issues. -/
def removals (mmap : Mmap) (s : State) : Call → List (State × Nat)
  | .free ptr => freeRemovals s ptr
  | .realloc ptr size =>
      if ptr = 0 then []
      else if size = 0 then freeRemovals s ptr
      else resizeRemovals mmap s ptr (reallocSize size)
  | _ => []

/-- `freelist_remove(header)`, called in the state `s`, is given a free block of the heap and
takes that block, and no other, off the list. -/
structure RemovesListed (s : State) (header : Nat) : Prop where
  block : ∃ headers, Headers s headers ∧ header ∈ headers
  free : load s.mem header 4 % 2 = 0
  /-- The walk stops at the block, not at the end of the list. -/
  found : ∃ steps link, walk (nextFree s.mem) 0 (s.freeHead ()) (· == header) walkFuel .head 0 =
    some (steps, some link)
  removed : ∃ nodes s', Linked (nextFree s.mem) 0 (s.freeHead ()) nodes ∧ header ∈ nodes ∧
    freelistRemove s header = some s' ∧
    Linked (nextFree s'.mem) 0 (s'.freeHead ()) (nodes.erase header) ∧
    s'.stat.freelistLen + 1 = s.stat.freelistLen

variable {mmap : Mmap} {s : State} {L : Layout Unit} {lists : Unit → List Block}
  {pre mid post : List Block} {c d : Block}

theorem map_addr_erase {next : Nat → Nat} {start : Nat} {blocks : List Block}
    (h : Linked next 0 start (blocks.map Block.addr)) (hd : d ∈ blocks) :
    (blocks.erase d).map Block.addr = (blocks.map Block.addr).erase d.addr := by
  obtain ⟨front, back, rfl⟩ := List.append_of_mem hd
  rw [List.map_append, List.map_cons] at h
  have hnot : d ∉ front := fun hmem => h.not_mem_front (List.mem_map_of_mem hmem)
  rw [List.erase_append_right _ hnot, List.erase_cons_head, List.map_append, List.map_append,
    List.map_cons, h.erase_eq]

/-- A free block next to those in hand is taken off the list. -/
theorem removesListed_of_held (h : Held theList s lists pre mid post)
    (pre' mid' post' : List Block) {left right : List Block}
    (hrow : pre' ++ mid' ++ post' = pre ++ mid ++ post)
    (hout : pre ++ post = left ++ d :: right) (hin : pre' ++ post' = left ++ right)
    (hfree : d.used = false) : RemovesListed s d.addr := by
  have hd : d ∈ pre ++ post := by simp [hout]
  have hmem : d ∈ pre ++ mid ++ post := mem_row_of_mem hd
  have hlisted : d ∈ lists () := h.binned.mem_iff.mpr ⟨hd, hfree, rfl⟩
  have hlinked := h.threaded.linked ()
  obtain ⟨s', heq, hheld, _, _⟩ := freelistRemove_spec h pre' mid' post' hrow hout hin hfree
  have hlen : s'.stat.freelistLen + 1 = s.stat.freelistLen := by
    rw [hheld.length, h.length, hin, hout]
    simp only [Layout.freeCount, List.countP_append, List.countP_cons, hfree, Bool.not_false,
      ↓reduceIte]
    omega
  refine ⟨⟨_, h.arena.headers h.threaded.tagged, List.mem_map_of_mem hmem⟩, ?_, ?_, ?_⟩
  · exact (h.threaded.tagged d hmem).clear_iff.mpr hfree
  · unfold freelistRemove at heq
    cases hwalk : walk (nextFree s.mem) 0 (s.freeHead ()) (· == d.addr) walkFuel .head 0 with
    | none =>
        rw [hwalk] at heq
        simp at heq
    | some result =>
        obtain ⟨steps, found⟩ := result
        cases found with
        | some link => exact ⟨steps, link, rfl⟩
        | none =>
            -- A walk to the end of the list leaves its length.
            rw [hwalk] at heq
            have hs' := Option.some.inj heq
            rw [← hs'] at hlen
            simp at hlen
  · refine ⟨_, s', hlinked, List.mem_map_of_mem hlisted, heq, ?_, hlen⟩
    have hlinked' := hheld.threaded.linked ()
    unfold Layout.chains at hlinked hlinked' ⊢
    rwa [map_addr_erase hlinked hlisted] at hlinked'

/-- The right neighbour that the first merge takes. -/
theorem rightRemoved_listed (h : Held theList s lists pre [c] post) {r : Nat}
    (hr : rightRemoved s c.addr = some r) : RemovesListed s r := by
  obtain ⟨_, hpost, hcur, _, _⟩ := h.pieces (List.mem_singleton_self c) ⟨rfl, rfl⟩
  have hle := hpost.le
  have htag := (h.threaded.tagged c (by simp)).tagSize_head
  have hright : ptrAdd c.addr c.size = c.addr + c.size := ptrAdd_of_lt (by omega)
  simp only [rightRemoved, htag, hright, Option.ite_none_right_eq_some, Option.some.injEq] at hr
  obtain ⟨hguard, rfl⟩ := hr
  obtain ⟨d, rest, rfl, hfree⟩ := (right_free_iff h).mp hguard
  rw [← right_addr h]
  exact removesListed_of_held h pre [c, d] rest (by simp) rfl rfl hfree

/-- The left neighbour that the second merge takes.  Its footer says free, and then its header
does. -/
theorem leftRemoved_listed (h : Held theList s lists pre [c] post) {r : Nat}
    (hr : leftRemoved s c.addr = some r) : RemovesListed s r := by
  have hge := c.size_ge
  obtain ⟨_, hpost, hcur, hlow, _⟩ := h.pieces (List.mem_singleton_self c) ⟨rfl, rfl⟩
  have hle := hpost.le
  have hfooter : ptrSub c.addr 4 = c.addr - 4 := ptrSub_of_le (by omega) (by omega)
  simp only [leftRemoved, hfooter, Option.ite_none_right_eq_some, Option.some.injEq] at hr
  obtain ⟨hguard, rfl⟩ := hr
  obtain ⟨front, e, rfl, hfoot⟩ := (left_free_iff h).mp hguard
  obtain ⟨_, _, hheader⟩ := left_header h
  rw [hheader]
  exact removesListed_of_held h front [e, c] post (by simp) (List.append_assoc _ _ _) rfl
    (Block.free_of_foot hfoot)

/-- Each call of `freelist_remove` in `my_free` of a live block. -/
theorem freeRemovals_listed (h : Represents theList s L) (hc : c ∈ Layout.usedBlocks L.blocks) :
    ∀ removal ∈ freeRemovals s c.payload, RemovesListed removal.1 removal.2 := by
  obtain ⟨hrow, hused⟩ := Layout.mem_usedBlocks.mp hc
  obtain ⟨pre, post, hblocks⟩ := List.append_of_mem hrow
  have hptr := h.payload_ne_zero hc
  have hflag := (h.threaded.tagged c hrow).not_clear hused
  obtain ⟨hheld, _⟩ := (h.held hblocks hused).release hused
  obtain ⟨s₁, c₁, post', list₁, hright, hcase, hheld₁, _, _⟩ := mergeRight_spec hheld
  have haddr₁ : c₁.addr = c.addr := by cases hcase <;> rfl
  rintro ⟨s', r⟩ hmem
  simp only [freeRemovals, hptr, ↓reduceIte, h.header_eq hrow, hflag] at hmem
  rcases List.mem_append.mp hmem with hmem | hmem
  · obtain ⟨right, hright', heq⟩ := List.mem_map.mp hmem
    obtain ⟨rfl, rfl⟩ := Prod.mk.inj heq
    exact rightRemoved_listed hheld (Option.mem_toList.mp hright')
  · obtain ⟨s₂, hs₂, hleft⟩ := List.mem_flatMap.mp hmem
    obtain ⟨left, hleft', heq⟩ := List.mem_map.mp hleft
    obtain ⟨rfl, rfl⟩ := Prod.mk.inj heq
    obtain rfl := Option.some.inj (hright.symm.trans (Option.mem_toList.mp hs₂))
    rw [← haddr₁] at hleft'
    exact leftRemoved_listed hheld₁ (Option.mem_toList.mp hleft')

/-- Each call of `freelist_remove` in `my_realloc` of a live block to a nonzero size. -/
theorem resizeRemovals_listed (hsound : mmap.Sound) (h : Represents theList s L)
    (hc : c ∈ Layout.usedBlocks L.blocks) {newSize : Nat} (hmod : newSize % 16 = 0)
    (hlt : newSize + 40 ≤ 2 ^ 64)
    (hsafe : moves s c.payload newSize = true → RequestSafe theList mmap s newSize) :
    ∀ removal ∈ resizeRemovals mmap s c.payload newSize,
      RemovesListed removal.1 removal.2 := by
  obtain ⟨hrow, hused⟩ := Layout.mem_usedBlocks.mp hc
  obtain ⟨pre, post, hblocks⟩ := List.append_of_mem hrow
  obtain ⟨_, hhigh, _, hcur, _⟩ := h.room.bounds hrow
  have hge := c.size_ge
  have hheader := h.header_eq hrow
  have htag := (h.threaded.tagged c hrow).tagSize_head
  rintro ⟨s', r⟩ hmem
  by_cases hmoves : moves s c.payload newSize = true
  · -- The old block is freed in the heap with the new one.
    obtain ⟨hgrow, _⟩ := (moves_iff h hblocks hused).mp hmoves
    obtain ⟨s₁, p, L₁, hmalloc, _, _, _, hnew⟩ :=
      copied_spec h hblocks hused hsound hmod hlt hgrow (hsafe hmoves)
    simp only [resizeRemovals, hmoves, ↓reduceIte, hmalloc, Option.toList_some,
      List.flatMap_cons, List.flatMap_nil, List.append_nil] at hmem
    by_cases hp : p = 0
    · simp [hp] at hmem
    · obtain ⟨u, rfl, _, _, hc₁, _, hrep, _⟩ := hnew hp
      have hlen : ptrSub c.size 8 = c.size - 8 := ptrSub_of_le (by omega) (by omega)
      simp only [hp, ↓reduceIte, hheader, htag, hlen] at hmem
      exact freeRemovals_listed hrep hc₁ (s', r) hmem
  · simp only [resizeRemovals, hmoves, Bool.false_eq_true, ↓reduceIte] at hmem
    obtain ⟨right, hright, heq⟩ := List.mem_map.mp hmem
    obtain ⟨rfl, rfl⟩ := Prod.mk.inj heq
    have hadd : ptrAdd c.addr c.size = c.addr + c.size := ptrAdd_of_lt (by omega)
    have hgrowth := Option.mem_toList.mp hright
    simp only [growthRemoved, hheader, htag, hadd, Option.ite_none_right_eq_some,
      Option.some.injEq] at hgrowth
    obtain ⟨⟨_, hguard⟩, rfl⟩ := hgrowth
    obtain ⟨d, rest, rfl, hfree, _⟩ := (absorbs_iff h hblocks hused).mp hguard
    have hheld := h.held hblocks hused
    rw [← right_addr hheld]
    exact removesListed_of_held hheld pre [c, d] rest (by simp) rfl rfl hfree

/-- In every state that admitted calls lead to, a block whose footer says free has a header
that says so and is on the list; and whatever the next admitted call passes to
`freelist_remove` is a block of the list. -/
theorem merges_listed (hsound : mmap.Sound) {w : Client Unit}
    (hreach : Runs.Reach (Client.step (api mmap)) (Admits mmap) (Client.initial Unit) w) :
    (∃ headers nodes, Headers w.heap headers ∧
      Linked (nextFree w.heap.mem) 0 (w.heap.freeHead ()) nodes ∧
      ∀ h ∈ headers, load w.heap.mem (h + blockSize w.heap.mem h - 4) 4 % 2 = 0 →
        load w.heap.mem h 4 % 2 = 0 ∧ h ∈ nodes) ∧
      ∀ call, Admits mmap w call → ∀ removal ∈ removals mmap w.heap call,
        RemovesListed removal.1 removal.2 := by
  obtain ⟨L, h, howns⟩ := reach_inv hsound hreach
  constructor
  · refine ⟨_, L.chains (), h.headers, h.threaded.linked (), fun a ha hclear => ?_⟩
    obtain ⟨b, hb, rfl⟩ := List.mem_map.mp ha
    have htagged := h.threaded.tagged b hb
    rw [show blockSize w.heap.mem b.addr = b.size from htagged.tagSize_head,
      htagged.clear_tail_iff] at hclear
    have hfree := Block.free_of_foot hclear
    exact ⟨htagged.clear_iff.mpr hfree,
      List.mem_map_of_mem (h.binned.mem_iff.mpr ⟨hb, hfree, rfl⟩)⟩
  · intro call hadmits
    obtain ⟨hallows, hsafe, hsmall⟩ := hadmits.safe
    cases call with
    | free ptr =>
        rcases howns.owned hallows with rfl | ⟨c, hc, rfl⟩
        · simp [removals, freeRemovals]
        · exact freeRemovals_listed h hc
    | realloc ptr size =>
        rcases howns.owned hallows.1 with rfl | ⟨c, hc, rfl⟩
        · simp [removals]
        · have hptr := h.payload_ne_zero hc
          by_cases hzero : size = 0
          · simp only [removals, hptr, hzero, ↓reduceIte]
            exact freeRemovals_listed h hc
          · have hbound := hsmall c.payload size rfl hptr
            obtain ⟨_, hmod, _, _, hlt⟩ := reallocSize_rounds hbound
            simp only [removals, hptr, hzero, ↓reduceIte]
            exact resizeRemovals_listed hsound h hc hmod hlt fun hmoves =>
              (hsafe _ (by simp [request, hptr, hzero, hmoves])).2
    | malloc size => simp [removals]
    | calloc nmemb size => simp [removals]
    | write addr byte => simp [removals]
    | statReset => simp [removals]

/-- Two blocks have been merged, and the last one is freed next to them. -/
theorem merges_listed_example :
    ∃ w s, Runs.run (Client.step (api lowRegion)) (Client.initial Unit)
        [.malloc 8, .malloc 8, .malloc 8, .malloc 8, .free 4144, .free 4128] = some w ∧
      (s, 4124) ∈ removals lowRegion w.heap (.free 4160) ∧ RemovesListed s 4124 := by
  have hfacts : (Runs.run (Client.step (api lowRegion)) (Client.initial Unit)
      [.malloc 8, .malloc 8, .malloc 8, .malloc 8, .free 4144, .free 4128]).map (fun w =>
        (decide (Admits lowRegion w (.free 4160)),
          decide (∃ removal ∈ removals lowRegion w.heap (.free 4160), removal.2 = 4124))) =
      some (true, true) := by decide +kernel
  obtain ⟨w, hrun, hw⟩ := Option.map_eq_some_iff.mp hfacts
  obtain ⟨hadmits, hremoval⟩ := Prod.mk.inj hw
  obtain ⟨⟨s, r⟩, hmem, rfl⟩ := of_decide_eq_true hremoval
  have hlisted := (merges_listed lowRegion_sound (.of_run .start (by decide +kernel) hrun)).2
    (.free 4160) (of_decide_eq_true hadmits)
  exact ⟨w, s, hrun, hmem, hlisted _ hmem⟩

/-- The word in front of the second block lies in the gap behind the misplaced first one.  It
is 0, so `my_free` takes it for the footer of a free block and passes its own header to
`freelist_remove`; the list is empty. -/
theorem merges_listed_fails : lateRegion.Sound ∧
    ∃ w, Runs.run (Client.step (api lateRegion)) (Client.initial Unit)
        [.malloc 0, .malloc 0] = some w ∧
      Runs.Reach (Client.step (api lateRegion)) (Client.Disciplined (2 ^ 63) (2 ^ 32 - 24))
        (Client.initial Unit) w ∧
      w.Disciplined (2 ^ 63) (2 ^ 32 - 24) (.free 4144) ∧
      ¬ ∀ removal ∈ removals lateRegion w.heap (.free 4144),
        RemovesListed removal.1 removal.2 := by
  have hfacts : (Runs.run (Client.step (api lateRegion)) (Client.initial Unit)
      [.malloc 0, .malloc 0]).map (fun w : Client Unit =>
        (decide (w.Disciplined (2 ^ 63) (2 ^ 32 - 24) (.free 4144)),
          decide (∃ removal ∈ removals lateRegion w.heap (.free 4144),
            removal.1.freeHead () = 0))) = some (true, true) := by decide +kernel
  obtain ⟨w, hrun, hw⟩ := Option.map_eq_some_iff.mp hfacts
  obtain ⟨hdisciplined, hremoval⟩ := Prod.mk.inj hw
  refine ⟨lateRegion_sound, w, hrun, .of_run .start (by decide +kernel) hrun,
    of_decide_eq_true hdisciplined, fun hall => ?_⟩
  obtain ⟨removal, hmem, hempty⟩ := of_decide_eq_true hremoval
  obtain ⟨nodes, _, hlinked, hlisted, _⟩ := (hall removal hmem).removed
  rw [hempty] at hlinked
  rw [hlinked.unique (linked_nil.mpr rfl)] at hlisted
  simp at hlisted

end FirstFit

end AllocSitter
