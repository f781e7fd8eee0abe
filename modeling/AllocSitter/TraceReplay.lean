/-
The allocation trace of `bench/driver.c`: its wrappers write a line for each call, and the
replayed trace is compared with the allocator after every call.
-/
import AllocSitter.ArenaWrites
import AllocSitter.ReplayLoop

namespace AllocSitter

open ByteMemory LinkedChain Tiling

/-- The line that `w_malloc`, `w_calloc`, `w_realloc` or `w_free` writes for a call that
returns `p`: none for a free of `NULL`. -/
def record (p : Nat) : Call → Option Record
  | .malloc n => some (.m n p)
  | .calloc c n => some (.c (c * n % 2 ^ 64) p)
  | .realloc old n => some (.r old n p)
  | .free ptr => if ptr ≠ 0 then some (.f ptr) else none
  | .write _ _ => none
  | .statReset => none

namespace Segregated

/-- The driver with its trace open. -/
structure Driver where
  client : Client Bin
  trace : List Record

namespace Driver

/-- One call through its wrapper; what the client writes to its blocks leaves no line. -/
def step (mmap : Mmap) (d : Driver) (call : Call) : Option Driver :=
  (d.client.exec (api mmap) call).map fun result =>
    ⟨result.1, d.trace ++ (record result.2 call).toList⟩

/-- The trace is opened. -/
def opened (w : Client Bin) : Driver := ⟨w, []⟩

/-- The measured part of `main` begins: the statistics are reset and the trace is opened. -/
def measured (w : Client Bin) : Driver := opened ⟨allocStatReset w.heap, w.live⟩

end Driver

variable {mmap : Mmap} {w w' : Client Bin} {d d' : Driver} {L L' : Layout Bin} {call : Call}
  {q : Nat}

/-- `my_realloc` has returned `NULL` for a block that it was to resize. -/
def Refused (call : Call) (q : Nat) : Prop :=
  ∃ ptr size, call = .realloc ptr size ∧ ptr ≠ 0 ∧ size ≠ 0 ∧ q = 0

theorem not_refused_of_ne (hne : ∀ ptr size, call ≠ .realloc ptr size) : ¬ Refused call q := by
  rintro ⟨ptr, size, hcall, _⟩
  exact hne ptr size hcall

/-- The live blocks after a call are those that its line tells of, except after a refused
resize, which keeps them. -/
theorem exec_live (hnull : Client.drop w.live 0 = w.live)
    (hwithin : call.Within (2 ^ 63) (2 ^ 63)) (hexec : w.exec (api mmap) call = some (w', q)) :
    (Refused call q → w'.live = w.live) ∧
      (¬ Refused call q → w'.live = ((record q call).elim w.live (Record.track w.live))) := by
  cases call with
  | malloc size =>
      obtain ⟨_, hlive⟩ := Client.exec_malloc hexec
      exact ⟨fun h => absurd h (not_refused_of_ne (by simp)), fun _ => hlive⟩
  | calloc nmemb size =>
      obtain ⟨_, hlive⟩ := Client.exec_calloc hexec
      refine ⟨fun h => absurd h (not_refused_of_ne (by simp)), fun _ => hlive.trans ?_⟩
      have hproduct : nmemb * size % 2 ^ 64 = nmemb * size :=
        Nat.mod_eq_of_lt (Nat.lt_of_le_of_lt hwithin (by decide))
      simp only [record, Option.elim_some, Record.track, hproduct]
  | free ptr =>
      obtain ⟨_, hlive, _⟩ := Client.exec_free hexec
      refine ⟨fun h => absurd h (not_refused_of_ne (by simp)), fun _ => ?_⟩
      by_cases hptr : ptr = 0
      · simpa [record, hptr, hnull] using hlive
      · simpa [record, hptr, Record.track] using hlive
  | realloc ptr size =>
      obtain ⟨_, hlive⟩ := Client.exec_realloc hexec
      constructor
      · rintro ⟨_, _, hcall, _, hsize, hq⟩
        obtain ⟨rfl, rfl⟩ := Call.realloc.inj hcall
        rw [hlive, if_pos ⟨hq, hsize⟩]
      · intro hserved
        change w'.live = Client.hold (Client.drop w.live ptr) q size
        rw [hlive]
        by_cases hfail : q = 0 ∧ size ≠ 0
        · have hptr : ptr = 0 := by
            by_contra hptr
            exact hserved ⟨ptr, size, rfl, hptr, hfail.2, hfail.1⟩
          rw [if_pos hfail, hptr, hnull, Client.hold, if_pos hfail.1]
        · rw [if_neg hfail]
  | write addr byte =>
      refine ⟨fun h => absurd h (not_refused_of_ne (by simp)), fun _ => ?_⟩
      rw [← (Prod.mk.inj (Option.some.inj hexec)).1]
      rfl
  | statReset =>
      refine ⟨fun h => absurd h (not_refused_of_ne (by simp)), fun _ => ?_⟩
      rw [← (Prod.mk.inj (Option.some.inj hexec)).1]
      rfl

/-- The client of a driver that makes admitted calls makes admitted calls. -/
theorem client_reach {admits : Client Bin → Call → Prop} {ok : Driver → Call → Prop}
    (hok : ∀ d call, ok d call → admits d.client call)
    (hstart : Runs.Reach (Client.step (api mmap)) admits (Client.initial Bin) w)
    (hrun : Runs.Reach (Driver.step mmap) ok (Driver.opened w) d) :
    Runs.Reach (Client.step (api mmap)) admits (Client.initial Bin) d.client := by
  induction hrun with
  | start => exact hstart
  | next _ hadmits hstep ih =>
      obtain ⟨⟨w', q⟩, hexec, rfl⟩ := Option.map_eq_some_iff.mp hstep
      exact ih.next (hok _ _ hadmits) (Client.step_of_exec hexec)

/-- The script's chunk size is the allocator's, for every block that is live. -/
theorem Booked.chunkOf_live (h : Booked mmap w L) {entry : Nat × Nat} (hentry : entry ∈ w.live) :
    chunkNeed entry.2 = chunkOf entry.2 := by
  obtain ⟨ptr, n⟩ := entry
  obtain ⟨b, hb, rfl, hfit, _⟩ := h.owns.block_of_mem hentry
  obtain ⟨_, hlow, hhigh, hcur, hpage⟩ := h.pooled.used_bounds hb
  have hmod : (n + 4 + 4 + 15) % 2 ^ 64 = n + 8 + 15 := by omega
  change tagSize ((n + 4 + 4 + 15) % 2 ^ 64) = tagSize (n + 8 + 15)
  rw [hmod]

theorem Booked.live_eq_chunks (h : Booked mmap w L) :
    w.heap.stat.liveRealBytes = (w.live.map fun entry => chunkOf entry.2).sum := by
  rw [h.accounts.live_eq h.pooled h.owns h.exact]
  congr 1
  apply List.map_congr_left
  intro entry hentry
  exact h.chunkOf_live hentry

/-- The script's model of the allocator: in every state that a run without a wrapped sum leads
to, each live block has the chunk that `chunk_of` computes for its last request, and the account
of live bytes is their sum. -/
theorem simulated_chunks (hsound : mmap.Sound)
    (hreach : Runs.Reach (Client.step (api mmap)) (AdmitsLate mmap) (Client.initial Bin) w) :
    (∀ entry ∈ w.live, w.chunk entry.1 = chunkOf entry.2) ∧
      w.heap.stat.liveRealBytes = (w.live.map fun entry => chunkOf entry.2).sum := by
  obtain ⟨L, h⟩ := reach_booked hsound hreach
  refine ⟨fun entry hentry => ?_, h.live_eq_chunks⟩
  rw [h.exact entry hentry]
  exact h.chunkOf_live hentry

/-- The block of 64 bytes comes back cut, the one of 32 bytes whole. -/
theorem simulated_chunks_example :
    ∃ w, Runs.run (Client.step (api lowRegion)) (Client.initial Bin)
        [.malloc 56, .calloc 2 10, .free 4112, .realloc 4176 30, .malloc 17] = some w ∧
      w.live = [(4176, 17), (4112, 30)] ∧
      (∀ entry ∈ w.live, w.chunk entry.1 = chunkOf entry.2) ∧
      w.heap.stat.liveRealBytes = (w.live.map fun entry => chunkOf entry.2).sum := by
  have hfacts : (Runs.run (Client.step (api lowRegion)) (Client.initial Bin)
      [.malloc 56, .calloc 2 10, .free 4112, .realloc 4176 30, .malloc 17]).map Client.live =
      some [(4176, 17), (4112, 30)] := by decide +kernel
  obtain ⟨w, hrun, hlive⟩ := Option.map_eq_some_iff.mp hfacts
  exact ⟨w, hrun, hlive, simulated_chunks lowRegion_sound
    (.of_run .start (by decide +kernel) hrun)⟩

/-- The sum with the break wraps, so a block is handed out whose size no tag can hold. -/
theorem simulated_chunks_fails : highRegion.Sound ∧
    ∃ w, Runs.run (Client.step (api highRegion)) (Client.initial Bin)
        [.malloc 16, .malloc (2 ^ 63)] = some w ∧
      Runs.Reach (Client.step (api highRegion)) (Client.Disciplined (2 ^ 63) (2 ^ 63))
        (Client.initial Bin) w ∧
      ¬ ∀ entry ∈ w.live, w.chunk entry.1 = chunkOf entry.2 := by
  have hfacts : (Runs.run (Client.step (api highRegion)) (Client.initial Bin)
      [.malloc 16, .malloc (2 ^ 63)]).map (fun w => (w.live.head?, w.chunk (2 ^ 63 + 48))) =
      some (some (2 ^ 63 + 48, 2 ^ 63), 16) := by decide +kernel
  obtain ⟨w, hrun, hw⟩ := Option.map_eq_some_iff.mp hfacts
  obtain ⟨hlive, hchunk⟩ := Prod.mk.inj hw
  refine ⟨highRegion_sound, w, hrun, .of_run .start (by decide +kernel) hrun, fun hall => ?_⟩
  have hsize := hall _ (List.mem_of_mem_head? hlive)
  rw [hchunk] at hsize
  revert hsize
  decide

/-- The resize of a block must find no room: its bin has no block for it, and the arena
ends before it. -/
def ResizeFails (s : State) : Call → Prop
  | .realloc ptr size => ptr ≠ 0 ∧ size ≠ 0 ∧ Refuses sizeToBin s size
  | _ => False

instance (s : State) : ∀ call, Decidable (ResizeFails s call)
  | .realloc _ _ => inferInstanceAs (Decidable (_ ∧ _))
  | .malloc _ => .isFalse id
  | .calloc _ _ => .isFalse id
  | .free _ => .isFalse id
  | .write _ _ => .isFalse id
  | .statReset => .isFalse id

/-- Which resizes are refused can be told before the call. -/
theorem refused_iff (hsound : mmap.Sound) (h : Booked mmap w L)
    (hadmits : AdmitsLate mmap w call) (hexec : w.exec (api mmap) call = some (w', q)) :
    Refused call q ↔ ResizeFails w.heap call := by
  cases call with
  | realloc ptr size =>
      by_cases hnull : ptr = 0
      · refine iff_of_false ?_ fun hfails => hfails.1 hnull
        rintro ⟨_, _, hcall, hptr, _⟩
        exact hptr ((Call.realloc.inj hcall).1 ▸ hnull)
      by_cases hzero : size = 0
      · refine iff_of_false ?_ fun hfails => hfails.2.1 hzero
        rintro ⟨_, _, hcall, _, hsize, _⟩
        exact hsize ((Call.realloc.inj hcall).2 ▸ hzero)
      have hheld := hadmits.1.1.1.resolve_left hnull
      obtain ⟨s', q', L', hrealloc, _, _, hrefuses⟩ := h.resize hsound hheld hzero hadmits
      have hcall : myRealloc mmap w.heap ptr size = some (w'.heap, q) :=
        (Client.exec_realloc hexec).1
      obtain ⟨_, rfl⟩ := Prod.mk.inj (Option.some.inj (hrealloc.symm.trans hcall))
      constructor
      · rintro ⟨_, _, _, _, _, hq⟩
        exact ⟨hnull, hzero, hrefuses.mp hq⟩
      · exact fun hfails => ⟨ptr, size, rfl, hnull, hzero, hrefuses.mpr hfails.2.2⟩
  | malloc => exact iff_of_false (not_refused_of_ne (by simp)) id
  | calloc => exact iff_of_false (not_refused_of_ne (by simp)) id
  | free => exact iff_of_false (not_refused_of_ne (by simp)) id
  | write => exact iff_of_false (not_refused_of_ne (by simp)) id
  | statReset => exact iff_of_false (not_refused_of_ne (by simp)) id

/-- The script's view agrees with the client's and with the allocator's account. -/
structure Agrees (r : Replay) (w : Client Bin) : Prop where
  live : ∀ ptr size, r.live ptr = some size ↔ (ptr, size) ∈ w.live
  real : r.liveReal = w.heap.stat.liveRealBytes

/-- A call that is no refused resize keeps the script's view complete. -/
theorem knows_step (hbooked : Booked mmap w L) (hbooked' : Booked mmap w' L')
    (hadmits : AdmitsLate mmap w call) (hexec : w.exec (api mmap) call = some (w', q))
    (hserved : ¬ Refused call q) {trace : List Record} (h : Knows (Replay.replay trace) w.live) :
    Knows (Replay.replay (trace ++ (record q call).toList)) w'.live := by
  have hnull := hbooked.drop_null
  have hlive := (exec_live hnull hadmits.1.2 hexec).2 hserved
  have hkeys := hbooked'.keys_nodup
  rw [hlive] at hkeys ⊢
  rw [Replay.replay_append]
  exact h.after hnull hkeys

/-- A refused resize makes the script forget the block, which stays live. -/
theorem forgets_refused {r : Replay} {ptr size : Nat} (hptr : ptr ≠ 0) :
    (r.event (.r ptr size 0)).live ptr = none := by
  have hremoved : ∀ x : Replay, (x.remove ptr).live ptr = none := by
    intro x
    unfold Replay.remove
    cases hlive : x.live ptr with
    | none => exact hlive
    | some n => exact Function.update_self ..
  have hnote := hremoved { r with events := r.events + 1 }
  by_cases hsize : size = 0
  · simpa [Replay.event, hptr, hsize, notePeaks_eq] using hnote
  · simpa [Replay.event, hptr, hsize, notePeaks_eq] using hnote

/-- Along a run without refused resizes the script knows exactly the live blocks. -/
theorem knows_run (hsound : mmap.Sound)
    (hreach : Runs.Reach (Client.step (api mmap)) (AdmitsLate mmap) (Client.initial Bin) w)
    (hempty : w.live = [])
    (hrun : Runs.Reach (Driver.step mmap)
      (fun d call => AdmitsLate mmap d.client call ∧ ¬ ResizeFails d.client.heap call)
      (Driver.opened w) d) :
    (∃ L, Booked mmap d.client L) ∧ Knows (Replay.replay d.trace) d.client.live := by
  induction hrun with
  | start =>
      refine ⟨reach_booked hsound hreach, ?_⟩
      rw [show (Driver.opened w).client.live = [] from hempty]
      exact knows_initial
  | next _ hok hstep ih =>
      obtain ⟨⟨w', q⟩, hexec, rfl⟩ := Option.map_eq_some_iff.mp hstep
      obtain ⟨⟨L, hbooked⟩, hknows⟩ := ih
      obtain ⟨hadmits, hgranted⟩ := hok
      obtain ⟨L', hbooked', _⟩ := hbooked.kept hsound hadmits hexec
      have hserved := mt (refused_iff hsound hbooked hadmits hexec).mp hgranted
      exact ⟨⟨L', hbooked'⟩, knows_step hbooked hbooked' hadmits hexec hserved hknows⟩

theorem Agrees.of_knows (hbooked : Booked mmap w L) {r : Replay} (h : Knows r w.live) :
    Agrees r w := by
  refine ⟨h.live, h.real.trans ?_⟩
  rw [hbooked.live_eq_chunks]

/-- From a state without live blocks that a run without a wrapped sum leads to: as long as no
resize of a block is refused, the replayed trace agrees with the client and with the account
after every call; and the next call keeps it so exactly if it is no refused resize. -/
theorem trace_agreement (hsound : mmap.Sound)
    (hreach : Runs.Reach (Client.step (api mmap)) (AdmitsLate mmap) (Client.initial Bin) w)
    (hempty : w.live = [])
    (hrun : Runs.Reach (Driver.step mmap)
      (fun d call => AdmitsLate mmap d.client call ∧ ¬ ResizeFails d.client.heap call)
      (Driver.opened w) d) :
    Agrees (Replay.replay d.trace) d.client ∧
      ∀ call, AdmitsLate mmap d.client call → ∃ d', d.step mmap call = some d' ∧
        (Agrees (Replay.replay d'.trace) d'.client ↔ ¬ ResizeFails d.client.heap call) := by
  obtain ⟨⟨L, hbooked⟩, hknows⟩ := knows_run hsound hreach hempty hrun
  refine ⟨.of_knows hbooked hknows, fun call hadmits => ?_⟩
  obtain ⟨w', q, L', hexec, hbooked', _⟩ := hbooked.exec hsound hadmits
  refine ⟨⟨w', d.trace ++ (record q call).toList⟩, by rw [Driver.step, hexec]; rfl, ?_⟩
  rw [← refused_iff hsound hbooked hadmits hexec]
  constructor
  · rintro hagrees ⟨ptr, size, rfl, hptr, hsize, rfl⟩
    have hlive := (exec_live hbooked.drop_null hadmits.1.2 hexec).1
      ⟨ptr, size, rfl, hptr, hsize, rfl⟩
    obtain ⟨n, hmem⟩ := hadmits.1.1.1.resolve_left hptr
    have hknown := (hagrees.live ptr n).mpr (hlive ▸ hmem)
    rw [Replay.replay_append] at hknown
    exact absurd (hknown.symm.trans (forgets_refused hptr)) (by simp)
  · intro hserved
    exact .of_knows hbooked' (knows_step hbooked hbooked' hadmits hexec hserved hknows)

/-- The trace is opened after a block has come and gone; a block is moved, and its old place
is taken by another. -/
theorem trace_agreement_example :
    ∃ w, Runs.run (Client.step (api lowRegion)) (Client.initial Bin)
        [.malloc 100, .free 4112] = some w ∧
      ∃ d, Runs.run (Driver.step lowRegion) (Driver.opened w)
          [.calloc 2 50, .realloc 4112 8, .realloc 0 98, .free 0] = some d ∧
        d.trace = [.c 100 4112, .r 4112 8 4224, .r 0 98 4112] ∧
        Agrees (Replay.replay d.trace) d.client := by
  have hfacts : (Runs.run (Client.step (api lowRegion)) (Client.initial Bin)
      [.malloc 100, .free 4112]).map (fun w => (w.live,
        decide (Runs.RunOk (Driver.step lowRegion)
          (fun d call => AdmitsLate lowRegion d.client call ∧
            ¬ ResizeFails d.client.heap call)
          (Driver.opened w) [.calloc 2 50, .realloc 4112 8, .realloc 0 98, .free 0]),
        (Runs.run (Driver.step lowRegion) (Driver.opened w)
          [.calloc 2 50, .realloc 4112 8, .realloc 0 98, .free 0]).map Driver.trace)) =
      some ([], true, some [.c 100 4112, .r 4112 8 4224, .r 0 98 4112]) := by decide +kernel
  obtain ⟨w, hstart, hw⟩ := Option.map_eq_some_iff.mp hfacts
  simp only [Prod.mk.injEq] at hw
  obtain ⟨hempty, hok, htrace⟩ := hw
  obtain ⟨d, hrun, hd⟩ := Option.map_eq_some_iff.mp htrace
  have hreach : Runs.Reach (Client.step (api lowRegion)) (AdmitsLate lowRegion)
      (Client.initial Bin) w := .of_run .start (by decide +kernel) hstart
  exact ⟨w, hstart, d, hrun, hd, (trace_agreement lowRegion_sound hreach hempty
    (.of_run .start (of_decide_eq_true hok) hrun)).1⟩

/-- The arena has no room for the larger block, so the old one stays live; the line
`r 1010 8589934592 0` makes the script forget it. -/
theorem trace_agreement_fails : lowRegion.Sound ∧
    ∃ d, Runs.run (Driver.step lowRegion) (Driver.opened (Client.initial Bin))
        [.malloc 16, .realloc 4112 (2 ^ 33)] = some d ∧
      Runs.Reach (Driver.step lowRegion)
        (fun d => Client.Disciplined (2 ^ 63) (2 ^ 63) d.client)
        (Driver.opened (Client.initial Bin)) d ∧
      ¬ Agrees (Replay.replay d.trace) d.client := by
  have hfacts : (Runs.run (Driver.step lowRegion) (Driver.opened (Client.initial Bin))
      [.malloc 16, .realloc 4112 (2 ^ 33)]).map (fun d => (d.client.live,
        (Replay.replay d.trace).live 4112)) = some ([(4112, 16)], none) := by decide +kernel
  obtain ⟨d, hrun, hd⟩ := Option.map_eq_some_iff.mp hfacts
  obtain ⟨hlive, hforgotten⟩ := Prod.mk.inj hd
  refine ⟨lowRegion_sound, d, hrun, .of_run .start (by decide +kernel) hrun, fun hagrees => ?_⟩
  have hknown := (hagrees.live 4112 16).mpr (by simp [hlive])
  rw [hforgotten] at hknown
  simp at hknown

/-- The layers of memory: what was asked for, what its blocks take, what the allocator has
counted, and what the arena has given. -/
structure Layered (r : Replay) (s : State) : Prop where
  requested : r.peakReq ≤ r.peakReal
  simulated : r.peakReal ≤ s.stat.peakLiveRealBytes
  counted : s.stat.peakLiveRealBytes ≤ arenaUsedBytes s

/-- One step of the two programs, with what holds at its end. -/
theorem Layered.step {r r' : Replay} {s s' : State} (h : Layered r s)
    (hpeaks : r.PeaksFrom r') (hreq : r'.liveReq ≤ r'.liveReal)
    (hreal : r'.liveReal ≤ s'.stat.peakLiveRealBytes)
    (hstep : PeakStep s s') : Layered r' s' := by
  obtain ⟨hrequested, hsimulated, hcounted⟩ := h
  obtain ⟨hmono, hwithin, hgrows⟩ := hstep
  have hcounted' : s'.stat.peakLiveRealBytes ≤ arenaUsedBytes s' := by omega
  rcases hpeaks with ⟨hsameReq, hsameReal⟩ | ⟨hmaxReq, hmaxReal⟩
  · exact ⟨by omega, by omega, hcounted'⟩
  · exact ⟨by omega, by omega, hcounted'⟩

/-- The live blocks that the script knows of: it has not seen those from before the trace,
and it forgets those whose resize was refused. -/
structure Measuring (mmap : Mmap) (d : Driver) (known : List (Nat × Nat)) : Prop where
  booked : ∃ L, Booked mmap d.client L
  knows : Knows (Replay.replay d.trace) known
  seen : known.Sublist d.client.live
  layered : Layered (Replay.replay d.trace) d.client.heap

/-- What the script knows after a call is live after it. -/
theorem sublist_step {known : List (Nat × Nat)} (hsub : known.Sublist w.live)
    (hnull : Client.drop w.live 0 = w.live) (hwithin : call.Within (2 ^ 63) (2 ^ 63))
    (hexec : w.exec (api mmap) call = some (w', q)) :
    ((record q call).elim known (Record.track known)).Sublist w'.live := by
  obtain ⟨hrefused, hserved⟩ := exec_live hnull hwithin hexec
  by_cases hcase : Refused call q
  · rw [hrefused hcase]
    obtain ⟨ptr, size, rfl, _, _, rfl⟩ := hcase
    exact List.filter_sublist.trans hsub
  · rw [hserved hcase]
    cases record q call with
    | none => exact hsub
    | some line => exact line.track_sublist hsub

/-- What the script counts as live is part of what the allocator counts. -/
theorem Booked.real_le_peak (hbooked : Booked mmap w L) {r : Replay} {known : List (Nat × Nat)}
    (h : Knows r known) (hsub : known.Sublist w.live) :
    r.liveReal ≤ w.heap.stat.peakLiveRealBytes := by
  have hsum := (hsub.map fun entry => chunkOf entry.2).sum_le_sum fun _ _ => Nat.zero_le _
  rw [← hbooked.live_eq_chunks] at hsum
  have hle := hsum.trans hbooked.accounts.peak
  rw [h.real]
  exact_mod_cast hle

/-- One call of the measured part. -/
theorem Measuring.step (hsound : mmap.Sound) {known : List (Nat × Nat)}
    (h : Measuring mmap d known) (hcall : call ≠ .statReset)
    (hadmits : AdmitsLate mmap d.client call) (hstep : d.step mmap call = some d') :
    ∃ known', Measuring mmap d' known' := by
  obtain ⟨⟨w', q⟩, hexec, rfl⟩ := Option.map_eq_some_iff.mp hstep
  obtain ⟨L, hbooked⟩ := h.booked
  obtain ⟨L', hbooked', hpeak⟩ := hbooked.kept hsound hadmits hexec
  have hnull := hbooked.drop_null
  have hnull' : Client.drop known 0 = known := by
    apply List.filter_eq_self.mpr
    intro entry hentry
    exact List.filter_eq_self.mp hnull entry (h.seen.subset hentry)
  have hsub := sublist_step h.seen hnull hadmits.1.2 hexec
  have hknows := h.knows.after hnull' (hbooked'.keys_nodup.sublist (hsub.map Prod.fst))
  have hpeaks := peaks_after (Replay.replay d.trace) (record q call)
  rw [← Replay.replay_append] at hknows hpeaks
  exact ⟨_, ⟨L', hbooked'⟩, hknows, hsub, h.layered.step hpeaks hknows.req_le_real
    (hbooked'.real_le_peak hknows hsub) (hpeak hcall)⟩

/-- In any state without a wrapped sum behind it, with blocks that may be live already, the
statistics are reset and the trace is opened: as long as no sum wraps, the layers lie above
one another after every call. -/
theorem measuring_run (hsound : mmap.Sound) (hbooked : Booked mmap w L)
    {ok : Driver → Call → Prop}
    (hok : ∀ d call L, Booked mmap d.client L → ok d call →
      call ≠ .statReset ∧ AdmitsLate mmap d.client call)
    (hrun : Runs.Reach (Driver.step mmap) ok (Driver.measured w) d) :
    ∃ known, Measuring mmap d known := by
  induction hrun with
  | start =>
      have hadmits : AdmitsLate mmap w .statReset :=
        ⟨⟨trivial, trivial⟩, fun n hn => by simp [request] at hn⟩
      obtain ⟨w₁, q, L₁, hexec, hreset, _⟩ := hbooked.exec hsound hadmits
      obtain ⟨rfl, rfl⟩ := Prod.mk.inj (Option.some.inj hexec)
      -- The new peak is what is live at the reset.
      have hpeak : (allocStatReset w.heap).stat.peakLiveRealBytes ≤
          arenaUsedBytes (allocStatReset w.heap) :=
        live_le_used (s := allocStatReset w.heap) hreset.pooled hreset.accounts
      exact ⟨[], ⟨L₁, hreset⟩, knows_initial, List.nil_sublist _, Int.le_refl 0,
        Int.natCast_nonneg _, hpeak⟩
  | next _ hcall hstep ih =>
      obtain ⟨known, hmeasuring⟩ := ih
      obtain ⟨L', hbooked'⟩ := hmeasuring.booked
      obtain ⟨hreset, hadmits⟩ := hok _ _ L' hbooked' hcall
      exact hmeasuring.step hsound hreset hadmits hstep

/-- On a region in user space, in any state that a well-behaved client can reach with requests
of at most `2 ^ 63` bytes, with blocks that may be live already, the statistics are reset and
the trace is opened: after any calls of this kind through the wrappers the layers lie above
one another, and the region is all that has been written to. -/
theorem memory_layers (hsound : mmap.Sound) (hspace : mmap.InUserSpace)
    (hreach : Runs.Reach (Client.step (api mmap)) (Client.Disciplined (2 ^ 63) (2 ^ 63))
      (Client.initial Bin) w)
    (hrun : Runs.Reach (Driver.step mmap)
      (fun d call => call ≠ .statReset ∧ d.client.Disciplined (2 ^ 63) (2 ^ 63) call)
      (Driver.measured w) d) :
    Layered (Replay.replay d.trace) d.client.heap ∧
      Mapped (Globals.initial Bin) d.client.heap := by
  obtain ⟨L, hbooked⟩ := reach_booked hsound (reach_late hsound hspace hreach)
  obtain ⟨known, hmeasuring⟩ := measuring_run hsound hbooked
    (fun _ _ _ hbooked hcall => ⟨hcall.1, hbooked.admits hspace hcall.2⟩) hrun
  have hcall : w.Disciplined (2 ^ 63) (2 ^ 63) .statReset := ⟨trivial, trivial⟩
  have hreset : Runs.Reach (Client.step (api mmap)) (Client.Disciplined (2 ^ 63) (2 ^ 63))
      (Client.initial Bin) (Driver.measured w).client := hreach.next hcall rfl
  have hclient := client_reach (fun _ _ hcall => hcall.2) hreset hrun
  exact ⟨hmeasuring.layered, reach_mapped hsound (reach_late hsound hspace hclient)⟩

/-- The region comes late, and a block of 112 bytes is live when the measured part begins.  Its
resize brings a block that the trace tells of, and both are live for a moment. -/
theorem memory_layers_example :
    ∃ w, Runs.run (Client.step (api lateRegion)) (Client.initial Bin) [.malloc 100] = some w ∧
      ∃ d, Runs.run (Driver.step lateRegion) (Driver.measured w)
          [.realloc 4113 200, .malloc 20, .free 4240] = some d ∧
        (Replay.replay d.trace).peakReq = 220 ∧ (Replay.replay d.trace).peakReal = 240 ∧
        d.client.heap.stat.peakLiveRealBytes = 320 ∧
        Layered (Replay.replay d.trace) d.client.heap ∧
        Mapped (Globals.initial Bin) d.client.heap := by
  have hfacts : (Runs.run (Client.step (api lateRegion)) (Client.initial Bin)
      [.malloc 100]).map (fun w => (decide (Runs.RunOk (Driver.step lateRegion)
          (fun d call => call ≠ .statReset ∧ d.client.Disciplined (2 ^ 63) (2 ^ 63) call)
          (Driver.measured w) [.realloc 4113 200, .malloc 20, .free 4240]),
        (Runs.run (Driver.step lateRegion) (Driver.measured w)
          [.realloc 4113 200, .malloc 20, .free 4240]).map fun d =>
            [(Replay.replay d.trace).peakReq, (Replay.replay d.trace).peakReal,
              (d.client.heap.stat.peakLiveRealBytes : Int)])) =
      some (true, some [220, 240, 320]) := by decide +kernel
  obtain ⟨w, hstart, hw⟩ := Option.map_eq_some_iff.mp hfacts
  obtain ⟨hok, hpeaks⟩ := Prod.mk.inj hw
  obtain ⟨d, hrun, hd⟩ := Option.map_eq_some_iff.mp hpeaks
  simp only [List.cons.injEq, and_true] at hd
  obtain ⟨hreq, hreal, hpeak⟩ := hd
  have hreach : Runs.Reach (Client.step (api lateRegion)) (Client.Disciplined (2 ^ 63) (2 ^ 63))
      (Client.initial Bin) w := .of_run .start (by decide +kernel) hstart
  exact ⟨w, hstart, d, hrun, hreq, hreal, by exact_mod_cast hpeak,
    memory_layers lateRegion_sound lateRegion_inUserSpace hreach
      (.of_run .start (of_decide_eq_true hok) hrun)⟩

end Segregated

end AllocSitter
