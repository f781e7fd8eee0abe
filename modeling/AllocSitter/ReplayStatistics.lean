/-
What the variables of `bench/analyze_trace.py` mean after any trace, also one that no
allocator would write: the counts, the bytes by size, and the peaks.
-/
import AllocSitter.ReplayLoop
import Mathlib.Algebra.BigOperators.Group.Finset.Basic
import Mathlib.Algebra.Order.BigOperators.Group.Finset
import Mathlib.Algebra.Order.Ring.Int

namespace AllocSitter

/-- The pointer that a line takes away. -/
def Record.removed : Record → Option Nat
  | .m _ _ => none
  | .c _ _ => none
  | .f ptr => some ptr
  | .r old _ _ => if old = 0 then none else some old

/-- The pointer and the size that a line adds. -/
def Record.added : Record → Option (Nat × Nat)
  | .m size ptr => if ptr = 0 then none else some (ptr, size)
  | .c size ptr => if ptr = 0 then none else some (ptr, size)
  | .f _ => none
  | .r _ size new => if new = 0 then none else some (new, size)

/-- The line tells of a request that was not granted. -/
def Record.fails : Record → Bool
  | .m _ ptr => ptr == 0
  | .c _ ptr => ptr == 0
  | .f _ => false
  | .r _ size new => new == 0 && size != 0

/-- The sizes of the requests that were granted, in order. -/
def servedSizes (trace : List Record) : List Nat :=
  trace.filterMap fun line => line.added.map Prod.snd

namespace Replay

/-- The loop's body up to where it looks at the peaks. -/
def account (r : Replay) (line : Record) : Replay :=
  let r := { r with events := r.events + 1 }
  let r := line.removed.elim r r.remove
  let r := line.added.elim r fun entry => r.add entry.1 entry.2
  { r with failed := r.failed + if line.fails then 1 else 0 }

/-- The peaks are at least the live values. -/
def Peaked (r : Replay) : Prop := r.liveReq ≤ r.peakReq ∧ r.liveReal ≤ r.peakReal

theorem notePeaks_with (r : Replay) : r.notePeaks =
    { r with
      peakReq := max r.peakReq r.liveReq
      peakReqEvent := if r.peakReq < r.liveReq then r.events else r.peakReqEvent
      peakReal := max r.peakReal r.liveReal } := by
  unfold notePeaks
  by_cases hreq : r.peakReq < r.liveReq
  · by_cases hreal : r.peakReal < r.liveReal
    · simp [hreq, hreal, max_eq_right_of_lt]
    · simp [hreq, hreal, max_eq_right_of_lt, max_eq_left (not_lt.mp hreal)]
  · by_cases hreal : r.peakReal < r.liveReal
    · simp [hreq, hreal, max_eq_right_of_lt, max_eq_left (not_lt.mp hreq)]
    · simp [hreq, hreal, max_eq_left (not_lt.mp hreq), max_eq_left (not_lt.mp hreal)]

/-- Where the live values have not passed the peaks there is nothing to note. -/
theorem Peaked.notePeaks_eq {r : Replay} (h : Peaked r) : r.notePeaks = r := by
  obtain ⟨hreq, hreal⟩ := h
  rw [notePeaks_with, max_eq_left hreq, max_eq_left hreal, if_neg (not_lt.mpr hreq)]

/-- A failed request goes to the next line without a look at the peaks, which makes no
difference. -/
theorem Peaked.event_eq {r : Replay} (h : Peaked r) (line : Record) :
    r.event line = (r.account line).notePeaks := by
  have hfailed : ∀ n m, { r with events := n, failed := m }.notePeaks =
      { r with events := n, failed := m } := fun n m => Peaked.notePeaks_eq h
  cases line with
  | m size ptr =>
      by_cases hptr : ptr = 0
      · simp [event, account, Record.removed, Record.added, Record.fails, hptr, hfailed]
      · simp [event, account, Record.removed, Record.added, Record.fails, hptr]
  | c size ptr =>
      by_cases hptr : ptr = 0
      · simp [event, account, Record.removed, Record.added, Record.fails, hptr, hfailed]
      · simp [event, account, Record.removed, Record.added, Record.fails, hptr]
  | f ptr => simp [event, account, Record.removed, Record.added, Record.fails]
  | r old size new =>
      by_cases hnew : new = 0
      · by_cases hsize : size = 0
        · by_cases hold : old = 0
          · simp [event, account, Record.removed, Record.added, Record.fails, hnew, hsize, hold]
          · simp [event, account, Record.removed, Record.added, Record.fails, hnew, hsize, hold]
        · by_cases hold : old = 0
          · simp [event, account, Record.removed, Record.added, Record.fails, hnew, hsize, hold]
          · simp [event, account, Record.removed, Record.added, Record.fails, hnew, hsize, hold]
      · by_cases hold : old = 0
        · simp [event, account, Record.removed, Record.added, Record.fails, hnew, hold]
        · simp [event, account, Record.removed, Record.added, Record.fails, hnew, hold]

theorem peaked_notePeaks (r : Replay) : Peaked r.notePeaks := by
  rw [notePeaks_with]
  exact ⟨le_max_right _ _, le_max_right _ _⟩

theorem replay_snoc (trace : List Record) (line : Record) :
    replay (trace ++ [line]) = (replay trace).event line := by
  rw [replay_append]
  rfl

theorem peaked_replay (trace : List Record) : Peaked (replay trace) := by
  induction trace using List.reverseRecOn with
  | nil => exact ⟨le_refl _, le_refl _⟩
  | append_singleton trace line ih =>
      rw [replay_snoc, ih.event_eq]
      exact peaked_notePeaks _

/-- One more line. -/
theorem replay_account (trace : List Record) (line : Record) :
    replay (trace ++ [line]) = ((replay trace).account line).notePeaks := by
  rw [replay_snoc, (peaked_replay trace).event_eq]

/-- The induction rule for what the accounts of a replay keep: it holds before the first
line, and one line keeps it. -/
theorem replay_induction (inv : List Record → Replay → Prop) (hinit : inv [] initial)
    (hline : ∀ trace r line, inv trace r → inv (trace ++ [line]) (r.account line))
    (hpeaks : ∀ trace r, inv trace r → inv trace r.notePeaks) (trace : List Record) :
    inv trace (replay trace) := by
  induction trace using List.reverseRecOn with
  | nil => exact hinit
  | append_singleton trace line ih =>
      rw [replay_account]
      exact hpeaks _ _ (hline _ _ line ih)

/-- The same for what does not speak of the trace: the parts of a line keep it one by
one. -/
theorem replay_invariant (inv : Replay → Prop) (hinit : inv initial)
    (hremove : ∀ r ptr, inv r → inv (r.remove ptr))
    (hadd : ∀ r ptr size, inv r → inv (r.add ptr size))
    (hcount : ∀ r events failed, inv r → inv { r with events := events, failed := failed })
    (hpeaks : ∀ r, inv r → inv r.notePeaks) (trace : List Record) : inv (replay trace) := by
  refine replay_induction (fun _ r => inv r) hinit (fun _ r line h => ?_)
    (fun _ r h => hpeaks r h) trace
  have hstart := hcount r (r.events + 1) r.failed h
  have hremoved : inv (line.removed.elim { r with events := r.events + 1 }
      ({ r with events := r.events + 1 } : Replay).remove) := by
    cases line.removed with
    | none => exact hstart
    | some ptr => exact hremove _ ptr hstart
  have hadded : ∀ x, inv x → inv (line.added.elim x fun entry => x.add entry.1 entry.2) := by
    intro x hx
    cases line.added with
    | none => exact hx
    | some entry => exact hadd x entry.1 entry.2 hx
  exact hcount _ _ _ (hadded _ hremoved)

section Tallies

variable {r : Replay}

/-- Taking a block away changes what is live, and nothing that is counted once. -/
theorem remove_counts (r : Replay) (ptr : Nat) :
    (r.remove ptr).counts = r.counts ∧ (r.remove ptr).totalReq = r.totalReq ∧
      (r.remove ptr).failed = r.failed ∧ (r.remove ptr).events = r.events ∧
      (r.remove ptr).peakBySize = r.peakBySize := by
  unfold remove
  cases r.live ptr with
  | none => exact ⟨rfl, rfl, rfl, rfl, rfl⟩
  | some size => exact ⟨rfl, rfl, rfl, rfl, rfl⟩

/-- The counts are those of the lines: every line is an event, a request was granted or
failed, and each granted size is counted and summed. -/
structure Tallies (trace : List Record) (r : Replay) : Prop where
  events : r.events = trace.length
  failed : r.failed = trace.countP Record.fails
  counts : ∀ size, r.counts size = (servedSizes trace).count size
  total : r.totalReq = (servedSizes trace).sum

theorem servedSizes_snoc (trace : List Record) (line : Record) :
    servedSizes (trace ++ [line]) =
      servedSizes trace ++ (line.added.map Prod.snd).toList := by
  rw [servedSizes, List.filterMap_append]
  cases hadded : line.added with
  | none => simp [servedSizes, hadded]
  | some entry => simp [servedSizes, hadded]

theorem Tallies.account {trace : List Record} (h : Tallies trace r) (line : Record) :
    Tallies (trace ++ [line]) (r.account line) := by
  -- The line has been counted, and a block may have been taken away.
  obtain ⟨x, hx, hcounts, htotal, hfailed, hevents⟩ : ∃ x : Replay,
      x = line.removed.elim { r with events := r.events + 1 }
        ({ r with events := r.events + 1 } : Replay).remove ∧ x.counts = r.counts ∧
        x.totalReq = r.totalReq ∧ x.failed = r.failed ∧ x.events = r.events + 1 := by
    refine ⟨_, rfl, ?_⟩
    cases line.removed with
    | none => exact ⟨rfl, rfl, rfl, rfl⟩
    | some ptr =>
        obtain ⟨hcounts, htotal, hfailed, hevents, _⟩ :=
          remove_counts { r with events := r.events + 1 } ptr
        exact ⟨hcounts, htotal, hfailed, hevents⟩
  have hfails : r.failed + (if line.fails then 1 else 0) =
      (trace ++ [line]).countP Record.fails := by
    rw [h.failed, List.countP_append, List.countP_singleton]
  have haccount : r.account line =
      { line.added.elim x (fun entry => x.add entry.1 entry.2) with
        failed := (line.added.elim x fun entry => x.add entry.1 entry.2).failed +
          if line.fails then 1 else 0 } := by
    rw [hx]
    rfl
  rw [haccount]
  cases hadded : line.added with
  | none =>
      refine ⟨?_, ?_, fun size => ?_, ?_⟩
      · simp [hevents, h.events]
      · simpa [hfailed] using hfails
      · simpa [hcounts, servedSizes_snoc, hadded] using h.counts size
      · simpa [htotal, servedSizes_snoc, hadded] using h.total
  | some entry =>
      refine ⟨?_, ?_, fun size => ?_, ?_⟩
      · simp [add, hevents, h.events]
      · simpa [add, hfailed] using hfails
      · simp only [Option.elim_some, add, hcounts, servedSizes_snoc, hadded, Option.map_some,
          Option.toList_some, List.count_append, List.count_singleton]
        by_cases hsize : size = entry.2
        · subst hsize
          simp [h.counts]
        · have hne : entry.2 ≠ size := fun heq => hsize heq.symm
          simp [Function.update_of_ne hsize, h.counts, hne]
      · simp [add, htotal, servedSizes_snoc, hadded, h.total]

theorem tallies_replay (trace : List Record) : Tallies trace (replay trace) :=
  replay_induction Tallies ⟨rfl, rfl, fun _ => rfl, rfl⟩
    (fun _ _ line h => h.account line)
    (fun _ r h => by
      rw [notePeaks_with]
      exact ⟨h.events, h.failed, h.counts, h.total⟩) trace

end Tallies

section BySize

variable {r : Replay}

theorem sum_mul_update {S : Finset Nat} {size : Nat} (hsize : size ∈ S) (weight f : Nat → Int)
    (d : Int) : ∑ n ∈ S, weight n * Function.update f size (f size + d) n =
      ∑ n ∈ S, weight n * f n + weight size * d := by
  rw [← Finset.add_sum_erase S _ hsize, ← Finset.add_sum_erase S (fun n => weight n * f n) hsize,
    Function.update_self]
  have hrest : ∑ n ∈ S.erase size, weight n * Function.update f size (f size + d) n =
      ∑ n ∈ S.erase size, weight n * f n := by
    apply Finset.sum_congr rfl
    intro n hn
    rw [Function.update_of_ne (Finset.ne_of_mem_erase hn)]
  rw [hrest, mul_add]
  omega

/-- The sizes that the script has counted are among these. -/
def Counts (r : Replay) (S : Finset Nat) : Prop := ∀ size, r.counts size ≠ 0 → size ∈ S

/-- The accounts by size: they cover the live blocks, they stay between nothing and what was
asked for, and the bytes are their sums. -/
structure BySize (r : Replay) : Prop where
  covers : ∀ size (blocks : Finset Nat), (∀ ptr ∈ blocks, r.live ptr = some size) →
    (blocks.card : Int) ≤ r.liveBySize size
  peak : ∀ size, r.liveBySize size ≤ r.peakBySize size
  counted : ∀ size, r.peakBySize size ≤ r.counts size
  req : ∀ S, Counts r S → r.liveReq = ∑ size ∈ S, (size : Int) * r.liveBySize size
  real : ∀ S, Counts r S → r.liveReal = ∑ size ∈ S, (chunkOf size : Int) * r.liveBySize size

theorem BySize.nonneg (h : BySize r) (size : Nat) : 0 ≤ r.liveBySize size := by
  simpa using h.covers size ∅ (by simp)

/-- A live block is counted. -/
theorem BySize.pos_of_live (h : BySize r) {ptr size : Nat} (hlive : r.live ptr = some size) :
    1 ≤ r.liveBySize size := by
  have hone := h.covers size {ptr} fun p hp => by rwa [Finset.mem_singleton.mp hp]
  simpa using hone

theorem BySize.mem_of_live (h : BySize r) {ptr size : Nat} (hlive : r.live ptr = some size)
    {S : Finset Nat} (hS : Counts r S) : size ∈ S := by
  have hpos := h.pos_of_live hlive
  have hpeak := h.peak size
  have hcounted := h.counted size
  exact hS size (by omega)

theorem BySize.remove (h : BySize r) (ptr : Nat) : BySize (r.remove ptr) := by
  unfold Replay.remove
  cases hlive : r.live ptr with
  | none => exact ⟨h.covers, h.peak, h.counted, h.req, h.real⟩
  | some n =>
      have hless : ∀ size, Function.update r.liveBySize n (r.liveBySize n - 1) size ≤
          r.liveBySize size := by
        intro size
        by_cases hsize : size = n
        · rw [hsize, Function.update_self]
          omega
        · rw [Function.update_of_ne hsize]
      refine ⟨fun size blocks hblocks => ?_, fun size => (hless size).trans (h.peak size),
        h.counted, fun S hS => ?_, fun S hS => ?_⟩
      · change (blocks.card : Int) ≤ Function.update r.liveBySize n (r.liveBySize n - 1) size
        have hout : ptr ∉ blocks := fun hmem => by
          have hnone : Function.update r.live ptr none ptr = some size := hblocks ptr hmem
          simp at hnone
        have hold : ∀ p ∈ blocks, r.live p = some size := by
          intro p hp
          have hne : p ≠ ptr := fun heq => hout (heq ▸ hp)
          rw [← hblocks p hp]
          exact (Function.update_of_ne hne none r.live).symm
        by_cases hsize : size = n
        · have hall := h.covers size (insert ptr blocks) fun p hp => by
            rcases Finset.mem_insert.mp hp with rfl | hp
            · rw [hlive, hsize]
            · exact hold p hp
          rw [Finset.card_insert_of_notMem hout] at hall
          rw [hsize, Function.update_self]
          rw [hsize] at hall
          push_cast at hall
          omega
        · rw [Function.update_of_ne hsize]
          exact h.covers size blocks hold
      · change r.liveReq - n =
          ∑ size ∈ S, (size : Int) * Function.update r.liveBySize n (r.liveBySize n - 1) size
        rw [sub_eq_add_neg (r.liveBySize n), sum_mul_update (h.mem_of_live hlive hS)
          (fun size => (size : Int)), ← h.req S hS]
        omega
      · change r.liveReal - chunkOf n =
          ∑ size ∈ S, (chunkOf size : Int) * Function.update r.liveBySize n (r.liveBySize n - 1) size
        rw [sub_eq_add_neg (r.liveBySize n), sum_mul_update (h.mem_of_live hlive hS)
          (fun size => (chunkOf size : Int)), ← h.real S hS]
        omega

/-- The count of a size after one more block. -/
theorem add_bySize (r : Replay) (ptr n size : Nat) :
    (r.add ptr n).peakBySize size = if size = n then max (r.peakBySize n) (r.liveBySize n + 1)
      else r.peakBySize size := by
  simp only [add]
  by_cases hsize : size = n
  · subst hsize
    rw [if_pos rfl]
    split
    · next hgt =>
        rw [Function.update_self]
        omega
    · next hle => omega
  · rw [if_neg hsize]
    split
    · exact Function.update_of_ne hsize _ _
    · rfl

theorem BySize.add (h : BySize r) (ptr n : Nat) : BySize (r.add ptr n) := by
  have hlive : ∀ size, (r.add ptr n).liveBySize size =
      if size = n then r.liveBySize n + 1 else r.liveBySize size := by
    intro size
    by_cases hsize : size = n
    · subst hsize
      simp [Replay.add]
    · simp [Replay.add, hsize]
  have hcounts : ∀ size, (r.add ptr n).counts size =
      if size = n then r.counts n + 1 else r.counts size := by
    intro size
    by_cases hsize : size = n
    · subst hsize
      simp [Replay.add]
    · simp [Replay.add, hsize]
  have hbounds : ∀ size, 0 ≤ r.liveBySize size ∧ r.liveBySize size ≤ r.peakBySize size ∧
      r.peakBySize size ≤ r.counts size := fun size => ⟨h.nonneg size, h.peak size, h.counted size⟩
  -- The sizes counted before are still counted, and `n` is one of them now.
  have hsmall : ∀ {S : Finset Nat}, Counts (r.add ptr n) S → Counts r S ∧ n ∈ S := by
    intro S hS
    refine ⟨fun size hne => hS size ?_, hS n ?_⟩
    · rw [hcounts]
      split
      · next hsize =>
          have hn := hbounds n
          omega
      · exact hne
    · rw [hcounts, if_pos rfl]
      have hn := hbounds n
      omega
  refine ⟨fun size blocks hblocks => ?_, fun size => ?_, fun size => ?_, fun S hS => ?_,
    fun S hS => ?_⟩
  · have hold : ∀ p ∈ blocks.erase ptr, r.live p = some size := by
      intro p hp
      obtain ⟨hne, hp⟩ := Finset.mem_erase.mp hp
      rw [← hblocks p hp]
      exact (Function.update_of_ne hne (some n) r.live).symm
    have hrest := h.covers size _ hold
    have hcard := Finset.pred_card_le_card_erase (s := blocks) (a := ptr)
    rw [hlive]
    by_cases hsize : size = n
    · subst hsize
      rw [if_pos rfl]
      omega
    · rw [if_neg hsize]
      have hout : ptr ∉ blocks := by
        intro hmem
        have hnew : Function.update r.live ptr (some n) ptr = some size := hblocks ptr hmem
        rw [Function.update_self] at hnew
        exact hsize (Option.some.inj hnew).symm
      rwa [Finset.erase_eq_of_notMem hout] at hrest
  · rw [hlive, add_bySize]
    have hsize := hbounds size
    split
    · omega
    · omega
  · rw [hcounts, add_bySize]
    have hsize := hbounds size
    have hn := hbounds n
    split
    · omega
    · omega
  · obtain ⟨hold, hn⟩ := hsmall hS
    change r.liveReq + n =
      ∑ size ∈ S, (size : Int) * Function.update r.liveBySize n (r.liveBySize n + 1) size
    rw [sum_mul_update hn (fun size => (size : Int)), ← h.req S hold, mul_one]
  · obtain ⟨hold, hn⟩ := hsmall hS
    change r.liveReal + chunkOf n =
      ∑ size ∈ S, (chunkOf size : Int) * Function.update r.liveBySize n (r.liveBySize n + 1) size
    rw [sum_mul_update hn (fun size => (chunkOf size : Int)), ← h.real S hold, mul_one]

theorem bySize_replay (trace : List Record) : BySize (replay trace) := by
  refine replay_invariant BySize ?_ (fun r ptr h => h.remove ptr)
    (fun r ptr size h => h.add ptr size) (fun r _ _ h => ⟨h.covers, h.peak, h.counted, h.req, h.real⟩)
    (fun r h => ?_) trace
  · refine ⟨fun size blocks hblocks => ?_, fun _ => le_refl _, fun _ => le_refl _,
      fun S _ => ?_, fun S _ => ?_⟩
    · have hempty : blocks = ∅ := Finset.eq_empty_of_forall_notMem fun p hp => by
        have hnone := hblocks p hp
        simp [initial] at hnone
      simp [hempty, initial]
    · simp [initial]
    · simp [initial]
  · rw [notePeaks_with]
    exact ⟨h.covers, h.peak, h.counted, h.req, h.real⟩

end BySize

section Peaks

theorem isGreatest_upTo_succ {f : Nat → Int} {k : Nat} {p : Int}
    (h : IsGreatest {v | ∃ n ≤ k, v = f n} p) :
    IsGreatest {v | ∃ n ≤ k + 1, v = f n} (max p (f (k + 1))) := by
  obtain ⟨⟨n, hn, hp⟩, hupper⟩ := h
  constructor
  · rcases max_choice p (f (k + 1)) with hmax | hmax
    · exact ⟨n, by omega, hmax.trans hp⟩
    · exact ⟨k + 1, le_refl _, hmax⟩
  · rintro v ⟨m, hm, rfl⟩
    by_cases hlast : m = k + 1
    · rw [hlast]
      exact le_max_right _ _
    · exact (hupper ⟨m, by omega, rfl⟩).trans (le_max_left _ _)

/-- A value that is raised to the present one at every line is the greatest so far. -/
theorem isGreatest_replay (value peak : Replay → Int) (hinit : peak initial = value initial)
    (hstep : ∀ trace line, peak (replay (trace ++ [line])) =
      max (peak (replay trace)) (value (replay (trace ++ [line])))) (trace : List Record) :
    IsGreatest {v | ∃ n ≤ trace.length, v = value (replay (trace.take n))}
      (peak (replay trace)) := by
  induction trace using List.reverseRecOn with
  | nil =>
      refine ⟨⟨0, le_refl _, hinit⟩, ?_⟩
      rintro v ⟨n, _, rfl⟩
      rw [List.take_nil]
      exact le_of_eq hinit.symm
  | append_singleton trace line ih =>
      have hold : IsGreatest
          {v | ∃ n ≤ trace.length, v = value (replay ((trace ++ [line]).take n))}
          (peak (replay trace)) := by
        have hsame : ∀ n ≤ trace.length, (trace ++ [line]).take n = trace.take n :=
          fun n hn => List.take_append_of_le_length hn
        convert ih using 3 with v
        constructor
        · rintro ⟨n, hn, rfl⟩
          exact ⟨n, hn, by rw [hsame n hn]⟩
        · rintro ⟨n, hn, rfl⟩
          exact ⟨n, hn, by rw [hsame n hn]⟩
      have hnext := isGreatest_upTo_succ hold
      rw [hstep]
      have hwhole : (trace ++ [line]).take (trace.length + 1) = trace ++ [line] :=
        List.take_of_length_le (by simp)
      rw [hwhole] at hnext
      simpa using hnext

/-- The accounts leave the peaks of the bytes alone. -/
theorem account_peaks (r : Replay) (line : Record) :
    (r.account line).peakReq = r.peakReq ∧ (r.account line).peakReal = r.peakReal ∧
      (r.account line).peakReqEvent = r.peakReqEvent ∧
      (r.account line).events = r.events + 1 := by
  have hremove : ∀ (x : Replay) ptr, (x.remove ptr).peakReq = x.peakReq ∧
      (x.remove ptr).peakReal = x.peakReal ∧ (x.remove ptr).peakReqEvent = x.peakReqEvent ∧
      (x.remove ptr).events = x.events := by
    intro x ptr
    unfold remove
    cases x.live ptr with
    | none => exact ⟨rfl, rfl, rfl, rfl⟩
    | some size => exact ⟨rfl, rfl, rfl, rfl⟩
  unfold account
  cases line.removed with
  | none =>
      cases line.added with
      | none => exact ⟨rfl, rfl, rfl, rfl⟩
      | some entry => exact ⟨rfl, rfl, rfl, rfl⟩
  | some ptr =>
      cases line.added with
      | none => exact hremove _ ptr
      | some entry => exact hremove _ ptr

theorem peakReq_snoc (trace : List Record) (line : Record) :
    (replay (trace ++ [line])).peakReq =
      max (replay trace).peakReq (replay (trace ++ [line])).liveReq := by
  obtain ⟨hreq, _⟩ := account_peaks (replay trace) line
  rw [replay_account, notePeaks_with, hreq]

theorem peakReal_snoc (trace : List Record) (line : Record) :
    (replay (trace ++ [line])).peakReal =
      max (replay trace).peakReal (replay (trace ++ [line])).liveReal := by
  obtain ⟨_, hreal, _⟩ := account_peaks (replay trace) line
  rw [replay_account, notePeaks_with, hreal]

/-- A block less, and perhaps a block more of one size. -/
theorem peakBySize_account {r : Replay} (h : BySize r) (line : Record) (size : Nat) :
    (r.account line).peakBySize size =
      max (r.peakBySize size) ((r.account line).liveBySize size) := by
  obtain ⟨x, hx, hpeak, hlive⟩ : ∃ x : Replay,
      x = line.removed.elim { r with events := r.events + 1 }
        ({ r with events := r.events + 1 } : Replay).remove ∧ x.peakBySize = r.peakBySize ∧
        ∀ n, x.liveBySize n ≤ r.liveBySize n := by
    refine ⟨_, rfl, ?_⟩
    cases line.removed with
    | none => exact ⟨rfl, fun _ => le_refl _⟩
    | some ptr =>
        refine ⟨(remove_counts _ ptr).2.2.2.2, fun n => ?_⟩
        simp only [Option.elim_some, remove]
        cases r.live ptr with
        | none => exact le_refl _
        | some m =>
            by_cases hn : n = m
            · simp [hn]
            · simp [Function.update_of_ne hn]
  have hsize := (hlive size).trans (h.peak size)
  have haccount : ∀ n, (r.account line).peakBySize n =
        (line.added.elim x fun entry => x.add entry.1 entry.2).peakBySize n ∧
      (r.account line).liveBySize n =
        (line.added.elim x fun entry => x.add entry.1 entry.2).liveBySize n := by
    rw [hx]
    exact fun n => ⟨rfl, rfl⟩
  rw [(haccount size).1, (haccount size).2]
  cases line.added with
  | none =>
      simp only [Option.elim_none, hpeak]
      omega
  | some entry =>
      simp only [Option.elim_some, add_bySize, hpeak]
      by_cases hentry : size = entry.2
      · subst hentry
        simp [add]
      · simp only [hentry, ↓reduceIte, add, ne_eq, not_false_eq_true, Function.update_of_ne]
        omega

theorem peakBySize_snoc (size : Nat) (trace : List Record) (line : Record) :
    (replay (trace ++ [line])).peakBySize size =
      max ((replay trace).peakBySize size) ((replay (trace ++ [line])).liveBySize size) := by
  have hpeak := peakBySize_account (bySize_replay trace) line size
  rw [replay_account, notePeaks_with]
  exact hpeak

/-- The event noted for the peak is the first that reaches it. -/
structure FirstPeak (trace : List Record) (event : Nat) : Prop where
  within : event ≤ trace.length
  reaches : (replay (trace.take event)).liveReq = (replay trace).peakReq
  first : ∀ n < event, (replay (trace.take n)).liveReq < (replay trace).peakReq

theorem firstPeak_replay (trace : List Record) : FirstPeak trace (replay trace).peakReqEvent := by
  induction trace using List.reverseRecOn with
  | nil => exact ⟨le_refl _, rfl, fun n hn => absurd hn (Nat.not_lt_zero n)⟩
  | append_singleton trace line ih =>
      have hgreatest := isGreatest_replay liveReq peakReq rfl peakReq_snoc trace
      obtain ⟨_, _, hevent, hevents⟩ := account_peaks (replay trace) line
      have hpeak := peakReq_snoc trace line
      have hlen : (replay trace).events = trace.length := (tallies_replay trace).events
      have hnoted : (replay (trace ++ [line])).peakReqEvent =
          if (replay trace).peakReq < (replay (trace ++ [line])).liveReq then trace.length + 1
          else (replay trace).peakReqEvent := by
        obtain ⟨hreq, _⟩ := account_peaks (replay trace) line
        rw [replay_account, notePeaks_with, hevent, hevents, hreq, hlen]
      by_cases hnew : (replay trace).peakReq < (replay (trace ++ [line])).liveReq
      · rw [hnoted, if_pos hnew]
        rw [max_eq_right hnew.le] at hpeak
        refine ⟨by simp, ?_, fun n hn => ?_⟩
        · rw [hpeak, List.take_of_length_le (by simp)]
        · rw [List.take_append_of_le_length (by omega), hpeak]
          exact (hgreatest.2 ⟨n, by omega, rfl⟩).trans_lt hnew
      · rw [hnoted, if_neg hnew]
        rw [max_eq_left (not_lt.mp hnew)] at hpeak
        have hwithin := ih.within
        refine ⟨by simp; omega, ?_, fun n hn => ?_⟩
        · rw [List.take_append_of_le_length hwithin, hpeak]
          exact ih.reaches
        · rw [List.take_append_of_le_length (by omega), hpeak]
          exact ih.first n hn

end Peaks

/-- A dictionary keeps its keys in the order in which they came. -/
def insertKey (keys : List Nat) (key : Nat) : List Nat :=
  if key ∈ keys then keys else keys ++ [key]

/-- `counts.keys()`. -/
def countKeys (trace : List Record) : List Nat := (servedSizes trace).foldl insertKey []

/-- `sum(counts.values())`. -/
def totalCalls (trace : List Record) : Int :=
  ((countKeys trace).map (replay trace).counts).sum

theorem foldl_insertKey (sizes : List Nat) {keys : List Nat} (hkeys : keys.Nodup) :
    (sizes.foldl insertKey keys).Nodup ∧
      ∀ size, size ∈ sizes.foldl insertKey keys ↔ size ∈ keys ∨ size ∈ sizes := by
  induction sizes generalizing keys with
  | nil => exact ⟨hkeys, by simp⟩
  | cons first rest ih =>
      rw [List.foldl_cons]
      by_cases hmem : first ∈ keys
      · rw [insertKey, if_pos hmem]
        obtain ⟨hnodup, hiff⟩ := ih hkeys
        refine ⟨hnodup, fun size => (hiff size).trans ?_⟩
        rw [List.mem_cons]
        constructor
        · exact fun h => h.imp_right Or.inr
        · rintro (h | rfl | h)
          · exact Or.inl h
          · exact Or.inl hmem
          · exact Or.inr h
      · rw [insertKey, if_neg hmem]
        obtain ⟨hnodup, hiff⟩ :=
          ih (hkeys.append (List.nodup_singleton first) (List.disjoint_singleton.mpr hmem))
        refine ⟨hnodup, fun size => (hiff size).trans ?_⟩
        rw [List.mem_append, List.mem_singleton, List.mem_cons, or_assoc]

theorem mem_countKeys {trace : List Record} {size : Nat} :
    size ∈ countKeys trace ↔ size ∈ servedSizes trace :=
  ((foldl_insertKey (servedSizes trace) List.nodup_nil).2 size).trans (by simp)

theorem countKeys_nodup (trace : List Record) : (countKeys trace).Nodup :=
  (foldl_insertKey (servedSizes trace) List.nodup_nil).1

theorem countKeys_toFinset (trace : List Record) :
    (countKeys trace).toFinset = (servedSizes trace).toFinset := by
  ext size
  rw [List.mem_toFinset, List.mem_toFinset, mem_countKeys]

theorem counts_countKeys (trace : List Record) :
    Counts (replay trace) (countKeys trace).toFinset := by
  intro size hne
  rw [(tallies_replay trace).counts] at hne
  rw [List.mem_toFinset, mem_countKeys]
  exact List.count_pos_iff.mp (by omega)

theorem sum_countKeys (trace : List Record) (f : Nat → Int) :
    ((countKeys trace).map f).sum = ∑ size ∈ (countKeys trace).toFinset, f size :=
  (List.sum_toFinset f (countKeys_nodup trace)).symm

/-- The total by sizes. -/
theorem total_by_counts (trace : List Record) : (replay trace).totalReq =
    ((countKeys trace).map fun size : Nat => (size : Int) * (replay trace).counts size).sum := by
  have htallies := tallies_replay trace
  have hsum := Finset.sum_list_map_count (servedSizes trace) (fun size : Nat => (size : Int))
  rw [htallies.total, sum_countKeys, countKeys_toFinset]
  calc (((servedSizes trace).sum : Nat) : Int)
      = ((servedSizes trace).map fun size : Nat => (size : Int)).sum :=
        map_list_sum (Nat.castRingHom Int) _
    _ = ∑ size ∈ (servedSizes trace).toFinset, (servedSizes trace).count size • (size : Int) := hsum
    _ = ∑ size ∈ (servedSizes trace).toFinset, (size : Int) * (replay trace).counts size := by
        apply Finset.sum_congr rfl
        intro size _
        rw [htallies.counts, nsmul_eq_mul, mul_comm]

/-- The counts of the sizes of one kind. -/
theorem sum_counts (trace : List Record) (p : Nat → Bool) :
    (((countKeys trace).filter p).map (replay trace).counts).sum = (servedSizes trace).countP p := by
  have hkeys : ((countKeys trace).filter p).toFinset = ((servedSizes trace).filter p).toFinset := by
    rw [List.toFinset_filter, List.toFinset_filter, countKeys_toFinset]
  rw [← List.sum_toFinset _ ((countKeys_nodup trace).filter p), hkeys, List.countP_eq_length_filter,
    ← List.sum_toFinset_count_eq_length]
  refine (Finset.sum_congr rfl fun size hsize => ?_).trans (map_sum (Nat.castRingHom Int) _ _).symm
  have hp : p size = true := List.of_mem_filter (List.mem_toFinset.mp hsize)
  rw [(tallies_replay trace).counts, List.count_filter hp]
  rfl

theorem totalCalls_eq (trace : List Record) : totalCalls trace = (servedSizes trace).length := by
  have hall := sum_counts trace fun _ => true
  rwa [List.filter_true, List.countP_true] at hall

/-- Every line is an event; the counts by size add up to the requests that were granted,
and their bytes to the total. -/
theorem request_counts (trace : List Record) :
    Tallies trace (replay trace) ∧ totalCalls trace = (servedSizes trace).length ∧
      (replay trace).totalReq = ((countKeys trace).map fun size : Nat =>
        (size : Int) * (replay trace).counts size).sum :=
  ⟨tallies_replay trace, totalCalls_eq trace, total_by_counts trace⟩

theorem isGreatest_peakReq (trace : List Record) :
    IsGreatest {v | ∃ n ≤ trace.length, v = (replay (trace.take n)).liveReq}
      (replay trace).peakReq :=
  isGreatest_replay liveReq peakReq rfl peakReq_snoc trace

theorem isGreatest_peakReal (trace : List Record) :
    IsGreatest {v | ∃ n ≤ trace.length, v = (replay (trace.take n)).liveReal}
      (replay trace).peakReal :=
  isGreatest_replay liveReal peakReal rfl peakReal_snoc trace

theorem isGreatest_peakBySize (trace : List Record) (size : Nat) :
    IsGreatest {v | ∃ n ≤ trace.length, v = (replay (trace.take n)).liveBySize size}
      ((replay trace).peakBySize size) :=
  isGreatest_replay (fun r => r.liveBySize size) (fun r => r.peakBySize size) rfl
    (peakBySize_snoc size) trace

/-- A size that was counted after some lines is counted after all. -/
theorem Counts.take {trace : List Record} {S : Finset Nat} (h : Counts (replay trace) S)
    (n : Nat) : Counts (replay (trace.take n)) S := by
  intro size hne
  apply h size
  rw [(tallies_replay _).counts] at hne ⊢
  have hsub : (servedSizes (trace.take n)).Sublist (servedSizes trace) :=
    (List.take_sublist n trace).filterMap _
  have hle := hsub.count_le size
  omega

/-- The peak of the bytes is at most the peaks of the sizes together. -/
theorem peakReq_le_bySize (trace : List Record) : (replay trace).peakReq ≤
    ((countKeys trace).map fun size : Nat => (size : Int) * (replay trace).peakBySize size).sum := by
  obtain ⟨n, hn, hpeak⟩ := (isGreatest_peakReq trace).1
  rw [hpeak, (bySize_replay _).req _ ((counts_countKeys trace).take n), sum_countKeys]
  apply Finset.sum_le_sum
  intro size _
  have hle := (isGreatest_peakBySize trace size).2 ⟨n, hn, rfl⟩
  exact mul_le_mul_of_nonneg_left hle (Int.natCast_nonneg size)

/-- After any trace the bytes by size are sums over the counts by size, which cover the live
blocks and never pass what was requested; the peak is within the peaks of the sizes, and
those within the total. -/
theorem bytes_by_size (trace : List Record) :
    BySize (replay trace) ∧ 0 ≤ (replay trace).liveReq ∧
      (replay trace).peakReq ≤ ((countKeys trace).map fun size : Nat =>
        (size : Int) * (replay trace).peakBySize size).sum ∧
      ((countKeys trace).map fun size : Nat =>
        (size : Int) * (replay trace).peakBySize size).sum ≤ (replay trace).totalReq := by
  have hbySize := bySize_replay trace
  refine ⟨hbySize, ?_, peakReq_le_bySize trace, ?_⟩
  · rw [hbySize.req _ (counts_countKeys trace)]
    exact Finset.sum_nonneg fun size _ =>
      mul_nonneg (Int.natCast_nonneg size) (hbySize.nonneg size)
  · rw [total_by_counts, sum_countKeys, sum_countKeys]
    apply Finset.sum_le_sum
    intro size _
    exact mul_le_mul_of_nonneg_left (hbySize.counted size) (Int.natCast_nonneg size)

/-- The peaks are the greatest values after any line, and the event given for the requested
bytes is the first after which they stand at their peak. -/
theorem peaks_of_trace (trace : List Record) :
    IsGreatest {v | ∃ n ≤ trace.length, v = (replay (trace.take n)).liveReq}
        (replay trace).peakReq ∧
      IsGreatest {v | ∃ n ≤ trace.length, v = (replay (trace.take n)).liveReal}
        (replay trace).peakReal ∧
      (∀ size, IsGreatest {v | ∃ n ≤ trace.length, v = (replay (trace.take n)).liveBySize size}
        ((replay trace).peakBySize size)) ∧
      FirstPeak trace (replay trace).peakReqEvent :=
  ⟨isGreatest_peakReq trace, isGreatest_peakReal trace, isGreatest_peakBySize trace,
    firstPeak_replay trace⟩

section Tables

/-- `rows[:top]`, where a negative bound counts from the end. -/
def slice (rows : List Nat) (top : Int) : List Nat :=
  rows.take (if 0 ≤ top then top else rows.length + top).toNat

/-- The rows of a table: `sorted(..., key=lambda kv: -weight)[:top]`, a stable sort of the
sizes. -/
def topSizes (weight : Nat → Int) (trace : List Record) (top : Int) : List Nat :=
  slice ((countKeys trace).mergeSort fun a b => decide (weight b ≤ weight a)) top

/-- The table of the sizes by count. -/
def topByCount (trace : List Record) (top : Int) : List Nat :=
  topSizes (replay trace).counts trace top

/-- The table of the sizes by the bytes of their peak. -/
def topByPeak (trace : List Record) (top : Int) : List Nat :=
  topSizes (fun size => (replay trace).peakBySize size * size) trace top

/-- The last value of the running sum `cum` over the rows of the first table. -/
def cumulated (trace : List Record) (top : Int) : Int :=
  (topByCount trace top).foldl (fun cum size => cum + (replay trace).counts size) 0

/-- A table and the sizes that are left out. -/
theorem topSizes_split (weight : Nat → Int) (trace : List Record) (top : Int) :
    ∃ rest, (topSizes weight trace top ++ rest).Perm (countKeys trace) ∧
      (topSizes weight trace top ++ rest).Pairwise fun a b => weight b ≤ weight a := by
  let rows := (countKeys trace).mergeSort fun a b => decide (weight b ≤ weight a)
  refine ⟨rows.drop (if 0 ≤ top then top else rows.length + top).toNat, ?_, ?_⟩
  · rw [topSizes, slice, List.take_append_drop]
    exact List.mergeSort_perm _ _
  · rw [topSizes, slice, List.take_append_drop]
    have htrans : ∀ a b c : Nat, decide (weight b ≤ weight a) → decide (weight c ≤ weight b) →
        decide (weight c ≤ weight a) := by
      intro a b c hab hbc
      rw [decide_eq_true_eq] at *
      omega
    have htotal : ∀ a b : Nat, decide (weight b ≤ weight a) || decide (weight a ≤ weight b) := by
      intro a b
      rw [Bool.or_eq_true, decide_eq_true_eq, decide_eq_true_eq]
      omega
    exact (List.pairwise_mergeSort htrans htotal (countKeys trace)).imp of_decide_eq_true

theorem cumulated_eq (trace : List Record) (top : Int) :
    cumulated trace top = ((topByCount trace top).map (replay trace).counts).sum := by
  rw [cumulated, List.sum_eq_foldl, List.foldl_map]

theorem counts_pos {trace : List Record} {size : Nat} (hsize : size ∈ countKeys trace) :
    0 < (replay trace).counts size := by
  rw [(tallies_replay trace).counts]
  exact_mod_cast List.count_pos_iff.mpr (mem_countKeys.mp hsize)

/-- Both tables list different sizes of the trace, in falling order and none before one that
weighs more; and the share of the first reaches the whole exactly when it leaves nothing
out. -/
theorem report_tables (trace : List Record) (top : Int) :
    (∀ weight, ∀ rows, rows = topSizes weight trace top →
      rows.Nodup ∧ rows ⊆ countKeys trace ∧ (rows.Pairwise fun a b => weight b ≤ weight a) ∧
        ∀ size ∈ rows, ∀ other ∈ countKeys trace, other ∉ rows → weight other ≤ weight size) ∧
      cumulated trace top ≤ totalCalls trace ∧
      (cumulated trace top = totalCalls trace ↔
        ∀ size ∈ countKeys trace, size ∈ topByCount trace top) := by
  constructor
  · rintro weight rows rfl
    obtain ⟨rest, hperm, hsorted⟩ := topSizes_split weight trace top
    obtain ⟨hrows, _, hacross⟩ := List.pairwise_append.mp hsorted
    refine ⟨?_, fun size hsize => hperm.mem_iff.mp (List.mem_append_left rest hsize), hrows, ?_⟩
    · exact (hperm.nodup_iff.mpr (countKeys_nodup trace)).sublist (List.sublist_append_left _ _)
    · intro size hsize other hother hout
      have hmem := hperm.mem_iff.mpr hother
      exact hacross size hsize other ((List.mem_append.mp hmem).resolve_left hout)
  · obtain ⟨rest, hperm, _⟩ := topSizes_split (replay trace).counts trace top
    have hsum := (hperm.map (replay trace).counts).sum_eq
    rw [List.map_append, List.sum_append] at hsum
    have hrest : ∀ size ∈ rest, 0 < (replay trace).counts size := fun size hsize =>
      counts_pos (hperm.mem_iff.mp (List.mem_append_right _ hsize))
    have hnonneg : 0 ≤ (rest.map (replay trace).counts).sum := by
      apply List.sum_nonneg
      intro count hcount
      obtain ⟨size, hsize, rfl⟩ := List.mem_map.mp hcount
      exact (hrest size hsize).le
    rw [cumulated_eq, totalCalls, ← hsum, topByCount]
    refine ⟨by omega, ?_, ?_⟩
    · intro heq
      have hempty : rest = [] := by
        cases rest with
        | nil => rfl
        | cons first rest =>
            have hfirst := hrest first List.mem_cons_self
            have htail : 0 ≤ (rest.map (replay trace).counts).sum := by
              apply List.sum_nonneg
              intro count hcount
              obtain ⟨size, hsize, rfl⟩ := List.mem_map.mp hcount
              exact (hrest size (List.mem_cons_of_mem first hsize)).le
            rw [List.map_cons, List.sum_cons] at heq
            omega
      intro size hsize
      have hmem := hperm.mem_iff.mpr hsize
      rwa [hempty, List.append_nil] at hmem
    · intro hall
      have hempty : rest = [] := by
        cases rest with
        | nil => rfl
        | cons first rest =>
            have hnodup := hperm.nodup_iff.mpr (countKeys_nodup trace)
            have hlisted := hall first (hperm.mem_iff.mp (by simp))
            exact absurd hlisted
              fun h => (List.disjoint_of_nodup_append hnodup) h List.mem_cons_self
      rw [hempty]
      simp

end Tables

end Replay

end AllocSitter
