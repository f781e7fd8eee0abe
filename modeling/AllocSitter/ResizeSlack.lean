/-
Live blocks of `allocator.c` have no slack: unless `my_realloc` has moved it, a block is as
large as the last request for it needs, and the same request once more leaves everything
as it is.
-/
import AllocSitter.ExactChunks

namespace AllocSitter

namespace FirstFit

open ByteMemory LinkedChain Tiling

/-- A client, with the live pointers whose last request was a resize that moved the
block. -/
structure Resizer where
  client : Client Unit
  moved : List Nat

namespace Resizer

def initial : Resizer := ⟨Client.initial Unit, []⟩

/-- The pointers that count as moved after a call which returns `q`: a pointer that is
returned counts anew, and one that is given up no longer. -/
def movedAfter (s : State) (moved : List Nat) (q : Nat) : Call → List Nat
  | .free ptr => moved.filter (· ≠ ptr)
  | .realloc ptr size =>
      if q = 0 then if size = 0 then moved.filter (· ≠ ptr) else moved
      else if ptr ≠ 0 ∧ moves s ptr (reallocSize size) then q :: moved.filter (· ≠ ptr)
      else moved.filter (· ≠ q)
  | .malloc _ => moved.filter (· ≠ q)
  | .calloc _ _ => moved.filter (· ≠ q)
  | .write _ _ => moved
  | .statReset => moved

def step (mmap : Mmap) (r : Resizer) (call : Call) : Option Resizer :=
  (r.client.exec (api mmap) call).map fun result =>
    ⟨result.1, movedAfter r.client.heap r.moved result.2 call⟩

end Resizer

variable {mmap : Mmap} {s s' : State} {L L' : Layout Unit} {pre post : List Block} {c : Block}
  {w w' : Client Unit} {newSize q : Nat}

/-- A resize in place gives the block the size asked for. -/
theorem ReallocCase.chunk_eq (hcase : ReallocCase mmap s L pre c post newSize w'.heap q L')
    (h : Represents theList s L) (hblocks : L.blocks = pre ++ c :: post) (hused : c.used = true)
    (hrep : Represents theList w'.heap L') (hmod : newSize % 16 = 0)
    (hstays : moves s c.payload newSize = false) : w'.chunk q = newSize := by
  have hsized : ∀ b ∈ L'.blocks, b.addr = c.addr → b.size = newSize →
      w'.chunk c.payload = newSize := by
    intro b hb haddr hsize
    rw [← hsize, ← hrep.chunk_eq hb]
    unfold Block.payload
    rw [haddr]
  have hmoves : ¬ (c.size < newSize ∧
      ∀ d rest, post = d :: rest → d.used = false → c.size + d.size < newSize) := by
    rw [← moves_iff h hblocks hused, hstays]
    simp
  cases hcase with
  | same hfit hslack =>
      have hmod' := c.size_mod
      exact hsized c (by simp [hblocks]) rfl (by omega)
  | shrink hge hmod' =>
      exact hsized (c.taken newSize hge hmod') (by simp) rfl rfl
  | @growCut _ d rest hge hmod' =>
      exact hsized ((c.join d).taken newSize hge hmod') (by simp) rfl rfl
  | @growWhole _ d rest _ _ _ hexact =>
      exact hsized ((c.join d).taken (c.join d).size (c.join d).size_ge (c.join d).size_mod)
        (by simp) rfl hexact
  | refused hgrow hright => exact absurd ⟨hgrow, hright⟩ hmoves
  | moved hgrow hright => exact absurd ⟨hgrow, hright⟩ hmoves

/-- A block that an admitted call returns is exact, unless it comes from a move. -/
theorem returned_chunk (hsound : mmap.Sound) {call : Call} {moved : List Nat}
    (hinv : Inv theList w) (hadmits : Admits mmap w call)
    (hexec : w.exec (api mmap) call = some (w', q)) (hq : q ≠ 0)
    (hstays : q ∉ Resizer.movedAfter w.heap moved q call) :
    w'.chunk q = chunkNeed call.bytes := by
  obtain ⟨hallows, hsafe, hsmall⟩ := hadmits.safe
  obtain ⟨L, h, howns⟩ := hinv
  cases call with
  | malloc size =>
      obtain ⟨hsize, hsafe'⟩ := hsafe size rfl
      exact mallocWith_chunk (fun _ _ => rfl) hsound h hsize hsafe'
        (Client.exec_malloc hexec).1 hq
  | calloc nmemb size =>
      exact callocWith_chunk (fun _ _ => rfl) hsound h hsafe (Client.exec_calloc hexec).1 hq
  | free ptr => exact absurd (Client.exec_free hexec).2.2 hq
  | realloc ptr size =>
      have hcall : myRealloc mmap w.heap ptr size = some (w'.heap, q) :=
        (Client.exec_realloc hexec).1
      rcases howns.owned hallows.1 with rfl | ⟨c, hc, rfl⟩
      · obtain ⟨hsize, hsafe'⟩ := hsafe size (by simp [request])
        rw [myRealloc, if_pos rfl] at hcall
        exact mallocWith_chunk (fun _ _ => rfl) hsound h hsize hsafe' hcall hq
      · have hptr := h.payload_ne_zero hc
        have hmoves : moves w.heap c.payload (reallocSize size) = false := by
          by_contra hyes
          exact hstays (by simp [Resizer.movedAfter, hq, hptr, hyes])
        by_cases hzero : size = 0
        · rw [myRealloc, if_neg hptr, if_pos hzero] at hcall
          obtain ⟨s', _, hresult⟩ := Option.bind_eq_some_iff.mp hcall
          exact absurd (Prod.mk.inj (Option.some.inj hresult)).2.symm hq
        · have hbound := hsmall c.payload size rfl hptr
          obtain ⟨hge, hmod, _, _, hlt⟩ := reallocSize_rounds hbound
          obtain ⟨hrow, hused⟩ := Layout.mem_usedBlocks.mp hc
          obtain ⟨pre, post, hblocks⟩ := List.append_of_mem hrow
          obtain ⟨s', p, L', heq, hcase, hrep, _⟩ :=
            resizeBlock_spec h hblocks hused hsound hge hmod hlt fun hyes =>
              absurd hyes (by simp [hmoves])
          rw [myRealloc, if_neg hptr, if_neg hzero] at hcall
          obtain ⟨rfl, rfl⟩ := Prod.mk.inj (Option.some.inj (heq.symm.trans hcall))
          rw [hcase.chunk_eq h hblocks hused hrep hmod hmoves, reallocSize_eq hbound]
          rfl
  | write addr byte => exact absurd (Prod.mk.inj (Option.some.inj hexec)).2.symm hq
  | statReset => exact absurd (Prod.mk.inj (Option.some.inj hexec)).2.symm hq

/-- A pointer that is held after a call, other than the one returned, counts as moved if it
did before. -/
theorem mem_movedAfter {call : Call} {moved : List Nat} {ptr : Nat}
    (hexec : w.exec (api mmap) call = some (w', q)) (hheld : w'.Holds ptr)
    (hne : ptr ≠ q) (hmem : ptr ∈ moved) : ptr ∈ Resizer.movedAfter w.heap moved q call := by
  -- A pointer that the call gives up is held no longer.
  have hdropped : ∀ {live : List (Nat × Nat)} {given size : Nat},
      w'.live = Client.hold (Client.drop live given) q size → ptr ≠ given := by
    rintro live given size hlive rfl
    obtain ⟨n, hentry⟩ := hheld
    rw [hlive] at hentry
    rcases Client.mem_hold hentry with hentry | heq
    · simp [Client.drop] at hentry
    · exact hne (congrArg Prod.fst heq)
  cases call with
  | malloc size => simp [Resizer.movedAfter, hmem, hne]
  | calloc nmemb size => simp [Resizer.movedAfter, hmem, hne]
  | free given =>
      obtain ⟨_, hlive, rfl⟩ := Client.exec_free hexec
      have hother : ptr ≠ given := @hdropped w.live given 0 (by simpa [Client.hold] using hlive)
      simp [Resizer.movedAfter, hmem, hother]
  | realloc given size =>
      obtain ⟨_, hlive⟩ := Client.exec_realloc hexec
      by_cases hfail : q = 0 ∧ size ≠ 0
      · simp [Resizer.movedAfter, hfail, hmem]
      · rw [if_neg hfail] at hlive
        have hother := hdropped hlive
        simp only [Resizer.movedAfter]
        split
        · split
          · simp [hmem, hother]
          · exact hmem
        · split
          · simp [hmem, hother]
          · simp [hmem, hne]
  | write addr byte => exact hmem
  | statReset => exact hmem

/-- Along every admitted run all live blocks are exact but those that were moved. -/
theorem reach_exactBut (hsound : mmap.Sound) {r : Resizer}
    (hreach : Runs.Reach (Resizer.step mmap) (fun r call => Admits mmap r.client call)
      Resizer.initial r) : Inv theList r.client ∧ ExactBut r.moved r.client := by
  induction hreach with
  | start =>
      exact ⟨inv_initial theList, fun entry hentry => by
        simp [Resizer.initial, Client.initial] at hentry⟩
  | next _ hadmits hstep ih =>
      obtain ⟨hinv, hexact⟩ := ih
      obtain ⟨hallows, hsafe⟩ := hadmits.safe
      obtain ⟨⟨w', q⟩, hexec, rfl⟩ := Option.map_eq_some_iff.mp hstep
      have hinv' := (contract hsound).keeps hinv hallows hsafe (Client.step_of_exec hexec)
      refine ⟨hinv', (contract hsound).exactBut_step hinv hallows hsafe hexec
        (fun hq hstays => returned_chunk hsound hinv hadmits hexec hq hstays) ?_ hexact⟩
      intro ptr hheld hne hptr hmem
      exact hptr (mem_movedAfter hexec hheld hne hmem)

/-- A block that is exact does not change when the same is asked for it again. -/
theorem myRealloc_same (h : Represents theList s L) (hc : c ∈ Layout.usedBlocks L.blocks)
    {size : Nat} (hpos : size ≠ 0) (hexact : c.size = reallocSize size) (mmap : Mmap) :
    myRealloc mmap s c.payload size = some (s, c.payload) := by
  have hrow := (Layout.mem_usedBlocks.mp hc).1
  have hptr := h.payload_ne_zero hc
  have htag := (h.threaded.tagged c hrow).tagSize_head
  have hgrow : ¬ reallocSize size > c.size := by omega
  have hleft : ¬ c.size - reallocSize size ≥ 16 := by omega
  simp only [myRealloc, hptr, hpos, ↓reduceIte, resizeBlock, h.header_eq hrow, htag, hgrow,
    shrinkInPlace, hleft]

/-- In every run of admitted calls, a live block that no resize has moved since it was asked
for is exactly as large as the request for it needs, and the same request to `my_realloc`,
unless it is for no bytes, returns it and leaves everything as it is. -/
theorem no_hidden_slack (hsound : mmap.Sound) {r : Resizer}
    (hreach : Runs.Reach (Resizer.step mmap) (fun r call => Admits mmap r.client call)
      Resizer.initial r) :
    ∀ entry ∈ r.client.live, entry.1 ∉ r.moved →
      r.client.chunk entry.1 = tagSize (entry.2 + 8 + 15) ∧
      (entry.2 ≠ 0 →
        myRealloc mmap r.client.heap entry.1 entry.2 = some (r.client.heap, entry.1)) := by
  obtain ⟨⟨L, h, howns⟩, hexact⟩ := reach_exactBut hsound hreach
  rintro ⟨ptr, n⟩ hentry hstays
  have hchunk := hexact (ptr, n) hentry hstays
  obtain ⟨b, hb, rfl, hfit⟩ := howns.block_of_mem hentry
  have hrow := (Layout.mem_usedBlocks.mp hb).1
  obtain ⟨_, _, hlt, _⟩ := h.room.bounds hrow
  have hmod := b.size_mod
  dsimp only at hchunk ⊢
  have hround : chunkNeed n = tagSize (n + 8 + 15) := by
    unfold chunkNeed
    rw [Nat.mod_eq_of_lt (by omega)]
  refine ⟨hchunk.trans hround, fun hpos => myRealloc_same h hb hpos ?_ mmap⟩
  rw [reallocSize_eq (by omega), ← hchunk]
  exact (h.chunk_eq hrow).symm

/-- A block of 112 bytes that was cut to 32. -/
theorem no_hidden_slack_example :
    ∃ r, Runs.run (Resizer.step lowRegion) Resizer.initial
        [.malloc 100, .malloc 8, .realloc 4112 20] = some r ∧
      (4112, 20) ∈ r.client.live ∧ r.client.chunk 4112 = 32 ∧
      myRealloc lowRegion r.client.heap 4112 20 = some (r.client.heap, 4112) := by
  have hfacts : (Runs.run (Resizer.step lowRegion) Resizer.initial
      [.malloc 100, .malloc 8, .realloc 4112 20]).map (fun r => (r.client.live, r.moved)) =
      some ([(4112, 20), (4224, 8)], []) := by decide +kernel
  obtain ⟨r, hrun, hr⟩ := Option.map_eq_some_iff.mp hfacts
  obtain ⟨hlive, hmoved⟩ := Prod.mk.inj hr
  have hentry : (4112, 20) ∈ r.client.live := by simp [hlive]
  obtain ⟨hchunk, hsame⟩ := no_hidden_slack lowRegion_sound
    (.of_run .start (by decide +kernel) hrun) (4112, 20) hentry (by simp [hmoved])
  exact ⟨r, hrun, hentry, hchunk, hsame (by decide)⟩

/-- The same request for no bytes frees the block; and a block that has been moved is 16 bytes
larger than its request needs. -/
theorem no_hidden_slack_fails : lowRegion.Sound ∧
    (∃ w, Runs.run (Client.step (api lowRegion)) (Client.initial Unit) [.malloc 0] = some w ∧
      Runs.Reach (Client.step (api lowRegion)) (Client.Disciplined (2 ^ 63) (2 ^ 32 - 24))
        (Client.initial Unit) w ∧
      (4112, 0) ∈ w.live ∧
      ∀ s' q, myRealloc lowRegion w.heap 4112 0 = some (s', q) → q ≠ 4112) ∧
    ∃ w, Runs.run (Client.step (api lowRegion)) (Client.initial Unit)
        [.malloc 8, .malloc 8, .realloc 4112 24] = some w ∧
      Runs.Reach (Client.step (api lowRegion)) (Client.Disciplined (2 ^ 63) (2 ^ 32 - 24))
        (Client.initial Unit) w ∧
      (4144, 24) ∈ w.live ∧ w.chunk 4144 ≠ tagSize (24 + 8 + 15) := by
  have hzero : (Runs.run (Client.step (api lowRegion)) (Client.initial Unit)
      [.malloc 0]).map (fun w => (w.live, (myRealloc lowRegion w.heap 4112 0).map Prod.snd)) =
      some ([(4112, 0)], some 0) := by decide +kernel
  have hmoved : (Runs.run (Client.step (api lowRegion)) (Client.initial Unit)
      [.malloc 8, .malloc 8, .realloc 4112 24]).map (fun w => (w.live, w.chunk 4144)) =
      some ([(4144, 24), (4128, 8)], 48) := by decide +kernel
  refine ⟨lowRegion_sound, ?_, ?_⟩
  · obtain ⟨w, hrun, hw⟩ := Option.map_eq_some_iff.mp hzero
    obtain ⟨hlive, hnull⟩ := Prod.mk.inj hw
    refine ⟨w, hrun, .of_run .start (by decide +kernel) hrun, by simp [hlive], ?_⟩
    rintro s' q heq rfl
    rw [heq] at hnull
    simp at hnull
  · obtain ⟨w, hrun, hw⟩ := Option.map_eq_some_iff.mp hmoved
    obtain ⟨hlive, hchunk⟩ := Prod.mk.inj hw
    refine ⟨w, hrun, .of_run .start (by decide +kernel) hrun, by simp [hlive], ?_⟩
    rw [hchunk]
    decide

end FirstFit

end AllocSitter
