/-
What `bench/driver.c` counts of the requests: the wrappers' counters `TS_AllocStat` and the
histogram of sizes, beside the trace that they write.  Whatever the allocator does, the
report of the driver and that of the script can be computed from each other.
-/
import AllocSitter.ReplayStatistics
import AllocSitter.TraceReplay

namespace AllocSitter

variable {ι : Type}

/-- `size_bucket`: `63 - clz(size | 1)`. -/
def sizeBucket (size : Nat) : Fin 64 :=
  ⟨63 - (BitVec.ofNat 64 size ||| 1#64).clz.toNat, by omega⟩

/-- `DataStat`, with 64-bit counters. -/
structure DataStat where
  mallocCnt : Nat := 0
  callocCnt : Nat := 0
  reallocCnt : Nat := 0
  freeCnt : Nat := 0
  reqBytes : Nat := 0
  sizeHist : Fin 64 → Nat := fun _ => 0

namespace DataStat

/-- The bytes of a request of `malloc` or `calloc` and its place in the histogram. -/
def addRequest (stat : DataStat) (n : Nat) : DataStat :=
  { stat with
    reqBytes := ptrAdd stat.reqBytes n
    sizeHist := Function.update stat.sizeHist (sizeBucket n)
      (ptrAdd (stat.sizeHist (sizeBucket n)) 1) }

/-- What the wrapper of a call counts. -/
def count (stat : DataStat) : Call → DataStat
  | .malloc n => { stat with mallocCnt := ptrAdd stat.mallocCnt 1 }.addRequest n
  | .calloc c n => { stat with callocCnt := ptrAdd stat.callocCnt 1 }.addRequest (c * n % 2 ^ 64)
  | .realloc _ _ => { stat with reallocCnt := ptrAdd stat.reallocCnt 1 }
  | .free _ => { stat with freeCnt := ptrAdd stat.freeCnt 1 }
  | .write _ _ => stat
  | .statReset => stat

end DataStat

/-- The driver over an allocator: its client, `TS_AllocStat`, and the trace if it is open. -/
structure Bench (ι : Type) where
  client : Client ι
  stat : DataStat
  trace : Option (List Record)

namespace Bench

/-- One call through its wrapper. -/
def step (api : Api ι) (b : Bench ι) (call : Call) : Option (Bench ι) :=
  (b.client.exec api call).map fun result =>
    ⟨result.1, b.stat.count call, b.trace.map (· ++ (record result.2 call).toList)⟩

/-- The measured part begins after the warm-up: both statistics are reset, and the trace is
opened if there is to be one. -/
def measure (api : Api ι) (traced : Bool) (b : Bench ι) : Bench ι :=
  ⟨⟨api.statReset b.client.heap, b.client.live⟩, {}, if traced then some [] else none⟩

end Bench

section Sizes

/-- The size on a line of `malloc` or `calloc`. -/
def Record.requested : Record → Option Nat
  | .m size _ => some size
  | .c size _ => some size
  | .f _ => none
  | .r _ _ _ => none

/-- The size of a resize that was granted. -/
def Record.resized : Record → Option Nat
  | .r _ size new => if new = 0 then none else some size
  | _ => none

/-- The size of a request of `malloc` or `calloc` that was refused. -/
def Record.refused : Record → Option Nat
  | .m size ptr => if ptr = 0 then some size else none
  | .c size ptr => if ptr = 0 then some size else none
  | .f _ => none
  | .r _ _ _ => none

/-- The sizes of one line. -/
theorem Record.sizes_perm (line : Record) :
    (line.requested.toList ++ line.resized.toList).Perm
      ((line.added.map Prod.snd).toList ++ line.refused.toList) := by
  cases line with
  | m size ptr =>
      by_cases hptr : ptr = 0
      · simp [requested, resized, refused, added, hptr]
      · simp [requested, resized, refused, added, hptr]
  | c size ptr =>
      by_cases hptr : ptr = 0
      · simp [requested, resized, refused, added, hptr]
      · simp [requested, resized, refused, added, hptr]
  | f ptr => exact .nil
  | r old size new =>
      by_cases hnew : new = 0
      · simp [requested, resized, refused, added, hnew]
      · simp [requested, resized, refused, added, hnew]

/-- The sizes on the lines of `malloc` and `calloc`. -/
def requestedSizes (trace : List Record) : List Nat := trace.filterMap Record.requested

def resizedSizes (trace : List Record) : List Nat := trace.filterMap Record.resized

def refusedSizes (trace : List Record) : List Nat := trace.filterMap Record.refused

/-- What the driver counts and what the script counts differ by the resizes and by the
requests that failed. -/
theorem sizes_perm (trace : List Record) :
    (requestedSizes trace ++ resizedSizes trace).Perm
      (servedSizes trace ++ refusedSizes trace) := by
  have hcons : ∀ (f : Record → Option Nat) line rest,
      (line :: rest).filterMap f = (f line).toList ++ rest.filterMap f := by
    intro f line rest
    rw [List.filterMap_cons]
    cases f line with
    | none => rfl
    | some size => rfl
  have hswap : ∀ a b c d : List Nat, ((a ++ b) ++ (c ++ d)).Perm ((a ++ c) ++ (b ++ d)) := by
    intro a b c d
    rw [List.append_assoc, List.append_assoc, ← List.append_assoc b, ← List.append_assoc c]
    exact (List.perm_append_comm.append_right d).append_left a
  induction trace with
  | nil => exact .nil
  | cons line rest ih =>
      unfold requestedSizes resizedSizes servedSizes refusedSizes at *
      rw [hcons, hcons, hcons, hcons]
      exact (hswap _ _ _ _).trans ((line.sizes_perm.append ih).trans (hswap _ _ _ _))

end Sizes

section Tallies

/-- The first field of a line. -/
inductive Kind where
  | m | c | f | r
deriving DecidableEq

def Record.kind : Record → Kind
  | .m _ _ => .m
  | .c _ _ => .c
  | .f _ => .f
  | .r _ _ _ => .r

/-- How many lines there are of a kind. -/
def linesOf (kind : Kind) (trace : List Record) : Nat :=
  trace.countP fun line => line.kind = kind

/-- The counters are those of the lines, as far as 64 bits hold them; `nulls` frees have
left none. -/
structure Tallied (trace : List Record) (nulls : Nat) (stat : DataStat) : Prop where
  mallocs : stat.mallocCnt = linesOf .m trace % 2 ^ 64
  callocs : stat.callocCnt = linesOf .c trace % 2 ^ 64
  reallocs : stat.reallocCnt = linesOf .r trace % 2 ^ 64
  frees : stat.freeCnt = (linesOf .f trace + nulls) % 2 ^ 64
  bytes : stat.reqBytes = (requestedSizes trace).sum % 2 ^ 64
  hist : ∀ b, stat.sizeHist b =
    ((requestedSizes trace).countP fun n => sizeBucket n = b) % 2 ^ 64

variable {trace : List Record} {nulls : Nat} {stat : DataStat} {api : Api ι} {b b' : Bench ι}

theorem linesOf_snoc (kind : Kind) (trace : List Record) (line : Record) :
    linesOf kind (trace ++ [line]) = linesOf kind trace + if line.kind = kind then 1 else 0 := by
  rw [linesOf, List.countP_append, List.countP_singleton]
  simp [linesOf]

theorem requestedSizes_snoc (trace : List Record) (line : Record) :
    requestedSizes (trace ++ [line]) = requestedSizes trace ++ line.requested.toList := by
  rw [requestedSizes, List.filterMap_append]
  cases hrequested : line.requested with
  | none => simp [requestedSizes, hrequested]
  | some size => simp [requestedSizes, hrequested]

theorem ptrAdd_mod (a n : Nat) : ptrAdd (a % 2 ^ 64) n = (a + n) % 2 ^ 64 := by
  unfold ptrAdd
  omega

/-- The bytes and the histogram after one more request. -/
theorem addRequest_tallies {n : Nat} {line : Record}
    (hbytes : stat.reqBytes = (requestedSizes trace).sum % 2 ^ 64)
    (hhist : ∀ b, stat.sizeHist b =
      ((requestedSizes trace).countP fun n => sizeBucket n = b) % 2 ^ 64)
    (hline : line.requested = some n) :
    (stat.addRequest n).reqBytes = (requestedSizes (trace ++ [line])).sum % 2 ^ 64 ∧
      ∀ b, (stat.addRequest n).sizeHist b =
        ((requestedSizes (trace ++ [line])).countP fun n => sizeBucket n = b) % 2 ^ 64 := by
  rw [requestedSizes_snoc, hline, Option.toList_some]
  constructor
  · rw [List.sum_append, List.sum_singleton, ← ptrAdd_mod, ← hbytes]
    rfl
  · intro b
    rw [List.countP_append, List.countP_singleton]
    by_cases hb : sizeBucket n = b
    · rw [if_pos (by simpa using hb), ← ptrAdd_mod, ← hhist, ← hb]
      exact Function.update_self _ _ _
    · rw [if_neg (by simpa using hb), Nat.add_zero, ← hhist]
      exact Function.update_of_ne (fun heq => hb heq.symm) _ _

/-- One call through its wrapper. -/
theorem Tallied.count (h : Tallied trace nulls stat) (call : Call) (p : Nat) :
    Tallied (trace ++ (record p call).toList) (nulls + if call = .free 0 then 1 else 0)
      (stat.count call) := by
  cases call with
  | malloc n =>
      obtain ⟨hbytes, hhist⟩ := addRequest_tallies
        (show { stat with mallocCnt := ptrAdd stat.mallocCnt 1 }.reqBytes = _ from h.bytes)
        h.hist (show (Record.m n p).requested = some n from rfl)
      refine ⟨?_, ?_, ?_, ?_, hbytes, hhist⟩
      · change ptrAdd stat.mallocCnt 1 = linesOf .m (trace ++ [.m n p]) % 2 ^ 64
        rw [h.mallocs, ptrAdd_mod, linesOf_snoc]
        rfl
      · exact h.callocs.trans (by simp [record, linesOf_snoc, Record.kind])
      · exact h.reallocs.trans (by simp [record, linesOf_snoc, Record.kind])
      · exact h.frees.trans (by simp [record, linesOf_snoc, Record.kind])
  | calloc c n =>
      obtain ⟨hbytes, hhist⟩ := addRequest_tallies
        (show { stat with callocCnt := ptrAdd stat.callocCnt 1 }.reqBytes = _ from h.bytes)
        h.hist (show (Record.c (c * n % 2 ^ 64) p).requested = some (c * n % 2 ^ 64) from rfl)
      refine ⟨?_, ?_, ?_, ?_, hbytes, hhist⟩
      · exact h.mallocs.trans (by simp [record, linesOf_snoc, Record.kind])
      · change ptrAdd stat.callocCnt 1 = linesOf .c (trace ++ [.c (c * n % 2 ^ 64) p]) % 2 ^ 64
        rw [h.callocs, ptrAdd_mod, linesOf_snoc]
        rfl
      · exact h.reallocs.trans (by simp [record, linesOf_snoc, Record.kind])
      · exact h.frees.trans (by simp [record, linesOf_snoc, Record.kind])
  | realloc old n =>
      have hsizes : requestedSizes (trace ++ [.r old n p]) = requestedSizes trace := by
        rw [requestedSizes_snoc]
        exact List.append_nil _
      refine ⟨?_, ?_, ?_, ?_, ?_, ?_⟩
      · exact h.mallocs.trans (by simp [record, linesOf_snoc, Record.kind])
      · exact h.callocs.trans (by simp [record, linesOf_snoc, Record.kind])
      · change ptrAdd stat.reallocCnt 1 = linesOf .r (trace ++ [.r old n p]) % 2 ^ 64
        rw [h.reallocs, ptrAdd_mod, linesOf_snoc]
        rfl
      · exact h.frees.trans (by simp [record, linesOf_snoc, Record.kind])
      · exact h.bytes.trans (congrArg (fun sizes => sizes.sum % 2 ^ 64) hsizes.symm)
      · intro b
        refine (h.hist b).trans ?_
        change _ = ((requestedSizes (trace ++ [.r old n p])).countP _) % 2 ^ 64
        rw [hsizes]
  | free ptr =>
      have hcount : (stat.count (.free ptr)).freeCnt =
          (linesOf .f trace + nulls + 1) % 2 ^ 64 := by
        rw [← ptrAdd_mod, ← h.frees]
        rfl
      by_cases hptr : ptr = 0
      · have hrecord : (record p (.free ptr)).toList = [] := by simp [record, hptr]
        rw [hrecord, List.append_nil, if_pos (by rw [hptr])]
        exact ⟨h.mallocs, h.callocs, h.reallocs, hcount, h.bytes, h.hist⟩
      · have hrecord : (record p (.free ptr)).toList = [.f ptr] := by simp [record, hptr]
        have hsizes : requestedSizes (trace ++ [.f ptr]) = requestedSizes trace := by
          rw [requestedSizes_snoc]
          exact List.append_nil _
        rw [hrecord, if_neg (by simpa using hptr)]
        refine ⟨?_, ?_, ?_, ?_, ?_, ?_⟩
        · exact h.mallocs.trans (by simp [linesOf_snoc, Record.kind])
        · exact h.callocs.trans (by simp [linesOf_snoc, Record.kind])
        · exact h.reallocs.trans (by simp [linesOf_snoc, Record.kind])
        · rw [hcount, linesOf_snoc]
          simp only [Record.kind, ↓reduceIte]
          congr 1
          omega
        · rw [hsizes]
          exact h.bytes
        · rw [hsizes]
          exact h.hist
  | write addr byte => simpa [record, DataStat.count] using h
  | statReset => simpa [record, DataStat.count] using h

/-- The sizes that calls of `malloc` and `calloc` ask for. -/
def callSizes (calls : List Call) : List Nat :=
  calls.filterMap fun call => match call with
    | .malloc n => some n
    | .calloc c n => some (c * n % 2 ^ 64)
    | _ => none

theorem requested_record (call : Call) (p : Nat) :
    requestedSizes (record p call).toList = callSizes [call] := by
  cases call with
  | malloc n => rfl
  | calloc c n => rfl
  | realloc old n => rfl
  | free ptr =>
      by_cases hptr : ptr = 0
      · simp [record, hptr, requestedSizes, callSizes]
      · simp [record, hptr, requestedSizes, callSizes, Record.requested]
  | write addr byte => rfl
  | statReset => rfl

/-- After a run of the measured part the trace, if there is one, and the counters tell of the
same calls. -/
theorem tallied_run (api : Api ι) (traced : Bool) (b : Bench ι) (calls : List Call)
    (hrun : Runs.run (Bench.step api) (b.measure api traced) calls = some b') :
    ∃ trace, b'.trace = (if traced then some trace else none) ∧
      requestedSizes trace = callSizes calls ∧
      Tallied trace (calls.count (.free 0)) b'.stat := by
  induction calls using List.reverseRecOn generalizing b' with
  | nil =>
      rw [← Option.some.inj hrun]
      exact ⟨[], rfl, rfl, rfl, rfl, rfl, rfl, rfl, fun _ => rfl⟩
  | append_singleton calls call ih =>
      rw [Runs.run_snoc] at hrun
      obtain ⟨b₁, hbefore, hstep⟩ := Option.bind_eq_some_iff.mp hrun
      obtain ⟨⟨w, p⟩, _, rfl⟩ := Option.map_eq_some_iff.mp hstep
      obtain ⟨trace, htrace, hsizes, htallied⟩ := ih hbefore
      refine ⟨trace ++ (record p call).toList, ?_, ?_, ?_⟩
      · change b₁.trace.map _ = _
        rw [htrace]
        cases traced with
        | true => rfl
        | false => rfl
      · rw [requestedSizes, List.filterMap_append, callSizes, List.filterMap_append]
        exact congr (congrArg _ hsizes) (requested_record call p)
      · have hcount : (calls ++ [call]).count (.free 0) =
            calls.count (.free 0) + if call = .free 0 then 1 else 0 := by
          rw [List.count_append, List.count_singleton]
          simp
        rw [hcount]
        exact htallied.count call p

/-- A resize to nothing, which returns `NULL` and is no failure. -/
def Record.releases : Record → Bool
  | .r _ size new => size == 0 && new == 0
  | _ => false

/-- The lines of one kind each, and the calls for memory by what came of them. -/
theorem lines_total (trace : List Record) :
    linesOf .m trace + linesOf .c trace + linesOf .r trace + linesOf .f trace = trace.length ∧
      linesOf .m trace + linesOf .c trace + linesOf .r trace = (servedSizes trace).length +
        trace.countP Record.fails + trace.countP Record.releases := by
  induction trace using List.reverseRecOn with
  | nil => exact ⟨rfl, rfl⟩
  | append_singleton trace line ih =>
      obtain ⟨hall, hasked⟩ := ih
      simp only [linesOf_snoc, Replay.servedSizes_snoc, List.length_append, List.countP_append,
        List.countP_singleton, List.length_singleton]
      cases line with
      | m size ptr =>
          by_cases hptr : ptr = 0
          · simp [Record.kind, Record.added, Record.fails, Record.releases, hptr]
            omega
          · simp [Record.kind, Record.added, Record.fails, Record.releases, hptr]
            omega
      | c size ptr =>
          by_cases hptr : ptr = 0
          · simp [Record.kind, Record.added, Record.fails, Record.releases, hptr]
            omega
          · simp [Record.kind, Record.added, Record.fails, Record.releases, hptr]
            omega
      | f ptr =>
          simp [Record.kind, Record.added, Record.fails, Record.releases]
          omega
      | r old size new =>
          by_cases hnew : new = 0
          · by_cases hsize : size = 0
            · simp [Record.kind, Record.added, Record.fails, Record.releases, hnew, hsize]
              omega
            · simp [Record.kind, Record.added, Record.fails, Record.releases, hnew, hsize]
              omega
          · simp [Record.kind, Record.added, Record.fails, Record.releases, hnew]
            omega

/-- The counters of the driver against the results of the script. -/
structure ReportsAgree (trace : List Record) (nulls : Nat) (stat : DataStat) (r : Replay) :
    Prop where
  /-- `events` is the number of calls, less the frees of `NULL`. -/
  events : (stat.mallocCnt + stat.callocCnt + stat.reallocCnt + stat.freeCnt) % 2 ^ 64 =
    (r.events + nulls) % 2 ^ 64
  /-- `alloc_calls` of the driver also has what failed and the resizes to nothing. -/
  calls : ((stat.mallocCnt + stat.callocCnt + stat.reallocCnt : Nat) : Int) % 2 ^ 64 =
    (Replay.totalCalls trace + r.failed + trace.countP Record.releases) % 2 ^ 64
  /-- `req_bytes` has the requests that failed, `total_req` the resizes. -/
  bytes : ((stat.reqBytes + (resizedSizes trace).sum : Nat) : Int) % 2 ^ 64 =
    (r.totalReq + (refusedSizes trace).sum) % 2 ^ 64
  /-- So do the buckets, against the counts of the sizes that fall into them. -/
  hist : ∀ b, ((stat.sizeHist b +
      (resizedSizes trace).countP fun n => sizeBucket n = b : Nat) : Int) % 2 ^ 64 =
    ((((Replay.countKeys trace).filter fun n => sizeBucket n = b).map r.counts).sum +
      (refusedSizes trace).countP fun n => sizeBucket n = b) % 2 ^ 64

theorem Tallied.reportsAgree (h : Tallied trace nulls stat) :
    ReportsAgree trace nulls stat (Replay.replay trace) := by
  have htallies := Replay.tallies_replay trace
  obtain ⟨hall, hasked⟩ := lines_total trace
  have hmallocs := h.mallocs
  have hcallocs := h.callocs
  have hreallocs := h.reallocs
  refine ⟨?_, ?_, ?_, fun b => ?_⟩
  · have hfrees := h.frees
    have hevents := htallies.events
    omega
  · have hfailed := htallies.failed
    rw [Replay.totalCalls_eq]
    push_cast
    omega
  · have hsum := (sizes_perm trace).sum_eq
    have hbytes := h.bytes
    have htotal := htallies.total
    rw [List.sum_append, List.sum_append] at hsum
    rw [Nat.cast_add]
    omega
  · have hcount := (sizes_perm trace).countP_eq fun n => sizeBucket n = b
    have hhist := h.hist b
    rw [List.countP_append, List.countP_append] at hcount
    rw [Replay.sum_counts]
    omega

/-- One measured run, over any allocator and with any calls: the report of the driver and that
of the script, which reads the trace, tell of the same requests. -/
theorem reports_agree (api : Api ι) (b : Bench ι) (calls : List Call)
    (hrun : Runs.run (Bench.step api) (b.measure api true) calls = some b') :
    ∃ trace, b'.trace = some trace ∧ Tallied trace (calls.count (.free 0)) b'.stat ∧
      ReportsAgree trace (calls.count (.free 0)) b'.stat (Replay.replay trace) := by
  obtain ⟨trace, htrace, _, htallied⟩ := tallied_run api true b calls hrun
  exact ⟨trace, htrace, htallied, htallied.reportsAgree⟩

/-- A request that is refused, a resize, a resize to nothing and a free of `NULL`. -/
theorem reports_agree_example :
    ∃ b, Runs.run (Bench.step (Segregated.api lowRegion))
        (Bench.measure (Segregated.api lowRegion) true ⟨Client.initial Segregated.Bin, {}, none⟩)
        [.malloc 16, .malloc (2 ^ 33), .realloc 4112 40, .free 0, .calloc 3 8,
          .realloc 4144 0] = some b ∧
      ∃ trace, b.trace = some trace ∧ Tallied trace 1 b.stat ∧
        ReportsAgree trace 1 b.stat (Replay.replay trace) := by
  obtain ⟨b, hrun⟩ := Option.isSome_iff_exists.mp
    (show (Runs.run (Bench.step (Segregated.api lowRegion))
        (Bench.measure (Segregated.api lowRegion) true ⟨Client.initial Segregated.Bin, {}, none⟩)
        [.malloc 16, .malloc (2 ^ 33), .realloc 4112 40, .free 0, .calloc 3 8,
          .realloc 4144 0]).isSome = true by decide +kernel)
  exact ⟨b, hrun, reports_agree _ _ _ hrun⟩

end Tallies

section Histogram

/-- The bounds that the report prints for a bucket.  The shift for the upper one is defined
below bucket 63. -/
def bucketLow (b : Fin 64) : Nat := if b.val = 0 then 0 else 2 ^ b.val

def bucketHigh (b : Fin 64) : Nat := 2 ^ (b.val + 1) - 1

theorem bucketHigh_lt_low {b b' : Fin 64} (h : b < b') : bucketHigh b < bucketLow b' := by
  have hle : 2 ^ (b.val + 1) ≤ 2 ^ b'.val := Nat.pow_le_pow_right (by decide) h
  have hpos := Nat.two_pow_pos (b.val + 1)
  have hne : b'.val ≠ 0 := Nat.ne_of_gt (Nat.lt_of_le_of_lt (Nat.zero_le _) h)
  rw [bucketHigh, bucketLow, if_neg hne]
  omega

theorem or_one_eq (n : Nat) : n ||| 1 = n / 2 * 2 + 1 := by
  have hhalf : (n ||| 1) / 2 = n / 2 := by
    rw [Nat.or_div_two]
    exact Nat.or_zero _
  have hodd : (n ||| 1) % 2 = 1 := by simp [Nat.or_mod_two_eq_one]
  omega

theorem sizeBucket_bounds {n : Nat} (hn : n < 2 ^ 64) :
    bucketLow (sizeBucket n) ≤ n ∧ n ≤ bucketHigh (sizeBucket n) := by
  obtain ⟨x, hx⟩ : ∃ x : BitVec 64, x = BitVec.ofNat 64 n ||| 1#64 := ⟨_, rfl⟩
  have hvalue : x.toNat = n / 2 * 2 + 1 := by
    rw [hx, BitVec.toNat_or, BitVec.toNat_ofNat, Nat.mod_eq_of_lt hn]
    exact or_one_eq n
  have hne : x ≠ 0#64 := by
    rintro rfl
    rw [BitVec.toNat_zero] at hvalue
    omega
  have hlow := BitVec.two_pow_sub_clz_le_toNat_of_ne_zero (by decide) hne
  have hhigh : x.toNat < 2 ^ (64 - x.clz.toNat) := BitVec.toNat_lt_two_pow_sub_clz
  have hbucket : (sizeBucket n).val = 63 - x.clz.toNat := by rw [hx]; rfl
  -- A word that is not zero has at most 63 zeros in front.
  have hclz : x.clz.toNat ≤ 63 := by
    by_contra hmore
    rw [show 64 - x.clz.toNat = 0 by omega] at hhigh
    omega
  rw [show 64 - x.clz.toNat = (sizeBucket n).val + 1 by omega, hvalue] at hhigh
  rw [show 64 - 1 - x.clz.toNat = (sizeBucket n).val by omega, hvalue] at hlow
  unfold bucketLow bucketHigh
  refine ⟨?_, by omega⟩
  split
  · exact Nat.zero_le _
  · next hpos =>
      obtain ⟨k, hk⟩ := Nat.exists_eq_succ_of_ne_zero hpos
      rw [hk, Nat.pow_succ] at hlow ⊢
      omega

theorem sizeBucket_eq_iff {n : Nat} (hn : n < 2 ^ 64) (b : Fin 64) :
    sizeBucket n = b ↔ bucketLow b ≤ n ∧ n ≤ bucketHigh b := by
  obtain ⟨hlow, hhigh⟩ := sizeBucket_bounds hn
  constructor
  · rintro rfl
    exact ⟨hlow, hhigh⟩
  · rintro ⟨hlow', hhigh'⟩
    rcases lt_trichotomy (sizeBucket n) b with hlt | heq | hgt
    · have := bucketHigh_lt_low hlt
      omega
    · exact heq
    · have := bucketHigh_lt_low hgt
      omega

/-- `hist_max`. -/
def histMax (stat : DataStat) : Nat :=
  (List.finRange 64).foldl (fun m b => if m < stat.sizeHist b then stat.sizeHist b else m) 0

/-- The length of a bar. -/
def barWidth (cnt max : Nat) : Nat := ptrSub (ptrAdd (cnt * 40 % 2 ^ 64) max) 1 / max

/-- A row of the histogram. -/
structure HistRow where
  lo : Nat
  hi : Nat
  cnt : Nat
  width : Nat

/-- The rows that are printed: those of the buckets that are not empty. -/
def histRows (stat : DataStat) : List HistRow :=
  (List.finRange 64).filterMap fun b =>
    if stat.sizeHist b = 0 then none
    else some ⟨bucketLow b, bucketHigh b, stat.sizeHist b,
      barWidth (stat.sizeHist b) (histMax stat)⟩

variable {trace : List Record} {nulls : Nat} {stat : DataStat}

theorem foldl_greatest (f : Fin 64 → Nat) (buckets : List (Fin 64)) (m : Nat) :
    m ≤ buckets.foldl (fun m b => if m < f b then f b else m) m ∧
      (∀ b ∈ buckets, f b ≤ buckets.foldl (fun m b => if m < f b then f b else m) m) ∧
      (buckets.foldl (fun m b => if m < f b then f b else m) m = m ∨
        ∃ b ∈ buckets, f b = buckets.foldl (fun m b => if m < f b then f b else m) m) := by
  induction buckets generalizing m with
  | nil => exact ⟨Nat.le_refl _, by simp, Or.inl rfl⟩
  | cons first rest ih =>
      rw [List.foldl_cons]
      obtain ⟨hle, hall, hreached⟩ := ih (if m < f first then f first else m)
      have hfirst : m ≤ (if m < f first then f first else m) ∧
          f first ≤ (if m < f first then f first else m) := by
        split <;> omega
      refine ⟨by omega, List.forall_mem_cons.mpr ⟨by omega, hall⟩, ?_⟩
      rcases hreached with heq | ⟨b, hb, heq⟩
      · rw [heq]
        split
        · exact Or.inr ⟨first, List.mem_cons_self, rfl⟩
        · exact Or.inl rfl
      · exact Or.inr ⟨b, List.mem_cons_of_mem first hb, heq⟩

theorem le_histMax (stat : DataStat) (b : Fin 64) : stat.sizeHist b ≤ histMax stat :=
  (foldl_greatest stat.sizeHist (List.finRange 64) 0).2.1 b (List.mem_finRange b)

theorem histMax_reached (hpos : histMax stat ≠ 0) : ∃ b, stat.sizeHist b = histMax stat := by
  rcases (foldl_greatest stat.sizeHist (List.finRange 64) 0).2.2 with heq | ⟨b, _, heq⟩
  · exact absurd heq hpos
  · exact ⟨b, heq⟩

/-- A bar is neither empty nor longer than the text it is cut from, and the fullest bucket
has it whole. -/
theorem barWidth_bounds {cnt max : Nat} (hpos : cnt ≠ 0) (hle : cnt ≤ max)
    (hsmall : max * 41 < 2 ^ 64) :
    1 ≤ barWidth cnt max ∧ barWidth cnt max ≤ 40 ∧ (cnt = max → barWidth cnt max = 40) := by
  have hwidth : barWidth cnt max = (cnt * 40 + max - 1) / max := by
    unfold barWidth ptrSub ptrAdd
    congr 1
    omega
  rw [hwidth]
  refine ⟨(Nat.one_le_div_iff (by omega)).mpr (by omega), ?_, ?_⟩
  · rw [← Nat.lt_succ_iff, Nat.div_lt_iff_lt_mul (by omega)]
    omega
  · rintro rfl
    rw [show cnt * 40 + cnt - 1 = cnt - 1 + cnt * 40 by omega,
      Nat.add_mul_div_left _ _ (by omega), Nat.div_eq_of_lt (by omega)]

/-- The rows of the histogram for the sizes that were requested. -/
structure ShowsSizes (sizes : List Nat) (rows : List HistRow) : Prop where
  counted : ∀ row ∈ rows, row.cnt = sizes.countP fun n => row.lo ≤ n ∧ n ≤ row.hi
  covered : ∀ n ∈ sizes, ∃ row ∈ rows, row.lo ≤ n ∧ n ≤ row.hi
  ordered : rows.Pairwise fun row next => row.hi < next.lo
  bars : ∀ row ∈ rows, 1 ≤ row.width ∧ row.width ≤ 40
  full : ∀ row ∈ rows, (∀ other ∈ rows, other.cnt ≤ row.cnt) → row.width = 40

theorem mem_histRows {row : HistRow} : row ∈ histRows stat ↔ ∃ b, stat.sizeHist b ≠ 0 ∧
    row = ⟨bucketLow b, bucketHigh b, stat.sizeHist b,
      barWidth (stat.sizeHist b) (histMax stat)⟩ := by
  rw [histRows, List.mem_filterMap]
  constructor
  · rintro ⟨b, _, hrow⟩
    split at hrow
    · simp at hrow
    · next hne => exact ⟨b, hne, (Option.some.inj hrow).symm⟩
  · rintro ⟨b, hne, rfl⟩
    exact ⟨b, List.mem_finRange b, if_neg hne⟩

/-- The histogram of the sizes that were requested. -/
theorem Tallied.showsSizes (h : Tallied trace nulls stat)
    (hmany : (requestedSizes trace).length * 41 < 2 ^ 64)
    (hsizes : ∀ n ∈ requestedSizes trace, n < 2 ^ 63) :
    ShowsSizes (requestedSizes trace) (histRows stat) := by
  have hcount : ∀ b, stat.sizeHist b = (requestedSizes trace).countP fun n => sizeBucket n = b := by
    intro b
    have hle : ((requestedSizes trace).countP fun n => sizeBucket n = b) ≤
        (requestedSizes trace).length := List.countP_le_length
    rw [h.hist b, Nat.mod_eq_of_lt (by omega)]
  have hmax : histMax stat * 41 < 2 ^ 64 := by
    by_cases hzero : histMax stat = 0
    · omega
    · obtain ⟨b, hb⟩ := histMax_reached hzero
      have hle : ((requestedSizes trace).countP fun n => sizeBucket n = b) ≤
          (requestedSizes trace).length := List.countP_le_length
      rw [← hb, hcount b]
      omega
  have hfound : ∀ n ∈ requestedSizes trace, stat.sizeHist (sizeBucket n) ≠ 0 := by
    intro n hn
    rw [hcount]
    exact Nat.ne_of_gt (List.countP_pos_iff.mpr ⟨n, hn, by simp⟩)
  refine ⟨?_, ?_, ?_, ?_, ?_⟩
  · intro row hrow
    obtain ⟨b, _, rfl⟩ := mem_histRows.mp hrow
    rw [hcount b]
    apply List.countP_congr
    intro n hn
    have hlt := hsizes n hn
    rw [decide_eq_true_eq, decide_eq_true_eq, sizeBucket_eq_iff (by omega)]
  · intro n hn
    have hlt := hsizes n hn
    exact ⟨_, mem_histRows.mpr ⟨sizeBucket n, hfound n hn, rfl⟩, sizeBucket_bounds (by omega)⟩
  · refine List.Pairwise.filterMap _ ?_ (List.pairwise_lt_finRange 64)
    intro b b' hlt row hrow row' hrow'
    split at hrow
    · simp at hrow
    · split at hrow'
      · simp at hrow'
      · rw [← Option.some.inj hrow, ← Option.some.inj hrow']
        exact bucketHigh_lt_low hlt
  · intro row hrow
    obtain ⟨b, hne, rfl⟩ := mem_histRows.mp hrow
    obtain ⟨hlow, hhigh, _⟩ := barWidth_bounds hne (le_histMax stat b) hmax
    exact ⟨hlow, hhigh⟩
  · intro row hrow hgreatest
    obtain ⟨b, hne, rfl⟩ := mem_histRows.mp hrow
    have hle := le_histMax stat b
    -- The row of a bucket that has the maximum is printed too, so this one has it.
    obtain ⟨top, htop⟩ := histMax_reached (show histMax stat ≠ 0 by omega)
    have hmost : stat.sizeHist top ≤ stat.sizeHist b :=
      hgreatest _ (mem_histRows.mpr ⟨top, by omega, rfl⟩)
    exact (barWidth_bounds hne hle hmax).2.2 (by omega)

/-- The printed histogram of a measured run, over any allocator and traced or not: every
request is in the one row between whose bounds its size lies, a row counts just these, the
bars are at least one and at most 40 marks long, and those of the fullest rows have 40. -/
theorem printed_histogram (api : Api ι) (traced : Bool) (b : Bench ι) {b' : Bench ι}
    (calls : List Call)
    (hrun : Runs.run (Bench.step api) (b.measure api traced) calls = some b')
    (hmany : (callSizes calls).length * 41 < 2 ^ 64) (hsizes : ∀ n ∈ callSizes calls, n < 2 ^ 63) :
    ShowsSizes (callSizes calls) (histRows b'.stat) := by
  obtain ⟨trace, _, hsame, htallied⟩ := tallied_run api traced b calls hrun
  rw [← hsame] at hmany hsizes ⊢
  exact htallied.showsSizes hmany hsizes

/-- A request of no bytes is refused, and counted all the same. -/
theorem printed_histogram_example :
    ∃ b, Runs.run (Bench.step (Segregated.api lowRegion))
        (Bench.measure (Segregated.api lowRegion) false ⟨Client.initial Segregated.Bin, {}, none⟩)
        [.malloc 100, .malloc 8, .calloc 3 8, .free 4112, .calloc 0 8, .malloc 9] = some b ∧
      ShowsSizes [100, 8, 24, 0, 9] (histRows b.stat) := by
  obtain ⟨b, hrun⟩ := Option.isSome_iff_exists.mp
    (show (Runs.run (Bench.step (Segregated.api lowRegion))
        (Bench.measure (Segregated.api lowRegion) false ⟨Client.initial Segregated.Bin, {}, none⟩)
        [.malloc 100, .malloc 8, .calloc 3 8, .free 4112, .calloc 0 8, .malloc 9]).isSome = true by
      decide +kernel)
  exact ⟨b, hrun, printed_histogram _ _ _ _ hrun (by decide) (by decide)⟩

end Histogram

end AllocSitter
