/-
The loop of `bench/analyze_trace.py` that replays an allocation trace.  The script keeps
its own view of the live blocks; what a line does to it is said once for all fields that
count.
-/
import AllocSitter.Client
import Mathlib.Algebra.Order.BigOperators.Group.List

namespace AllocSitter

/-- A line of the trace by its fields: `m <size> <ptr>`, `c <size> <ptr>`, `f <ptr>` and
`r <old> <size> <new>`. -/
inductive Record where
  | m (size ptr : Nat)
  | c (size ptr : Nat)
  | f (ptr : Nat)
  | r (old size new : Nat)
deriving Repr, DecidableEq

/-- `chunk_of`. -/
def chunkOf (size : Nat) : Nat := tagSize (size + 8 + 15)

/-- The variables of the script's loop. -/
structure Replay where
  live : Nat → Option Nat
  liveReq : Int
  liveReal : Int
  peakReq : Int
  peakReal : Int
  peakReqEvent : Nat
  totalReq : Int
  counts : Nat → Int
  liveBySize : Nat → Int
  peakBySize : Nat → Int
  unknownFree : Nat
  failed : Nat
  events : Nat

namespace Replay

def initial : Replay where
  live := fun _ => none
  liveReq := 0
  liveReal := 0
  peakReq := 0
  peakReal := 0
  peakReqEvent := 0
  totalReq := 0
  counts := fun _ => 0
  liveBySize := fun _ => 0
  peakBySize := fun _ => 0
  unknownFree := 0
  failed := 0
  events := 0

def add (r : Replay) (ptr size : Nat) : Replay :=
  let count := r.liveBySize size + 1
  { r with
    live := Function.update r.live ptr (some size)
    liveReq := r.liveReq + size
    liveReal := r.liveReal + chunkOf size
    totalReq := r.totalReq + size
    counts := Function.update r.counts size (r.counts size + 1)
    liveBySize := Function.update r.liveBySize size count
    peakBySize :=
      if count > r.peakBySize size then Function.update r.peakBySize size count
      else r.peakBySize }

def remove (r : Replay) (ptr : Nat) : Replay :=
  match r.live ptr with
  | none => { r with unknownFree := r.unknownFree + 1 }
  | some size =>
      { r with
        live := Function.update r.live ptr none
        liveReq := r.liveReq - size
        liveReal := r.liveReal - chunkOf size
        liveBySize := Function.update r.liveBySize size (r.liveBySize size - 1) }

/-- The end of the loop's body. -/
def notePeaks (r : Replay) : Replay :=
  let r :=
    if r.liveReq > r.peakReq then { r with peakReq := r.liveReq, peakReqEvent := r.events }
    else r
  if r.liveReal > r.peakReal then { r with peakReal := r.liveReal } else r

/-- The loop's body for one line. -/
def event (r : Replay) (line : Record) : Replay :=
  let r := { r with events := r.events + 1 }
  match line with
  | .m size ptr | .c size ptr =>
      if ptr = 0 then { r with failed := r.failed + 1 } else (r.add ptr size).notePeaks
  | .f ptr => (r.remove ptr).notePeaks
  | .r old size new =>
      let r := if old ≠ 0 then r.remove old else r
      let r :=
        if new ≠ 0 then r.add new size
        else if size ≠ 0 then { r with failed := r.failed + 1 }
        else r
      r.notePeaks

def replay (trace : List Record) : Replay := trace.foldl event initial

end Replay

/-- What a line says about the live blocks, with `known` those before it. -/
def Record.track (known : List (Nat × Nat)) : Record → List (Nat × Nat)
  | .m size ptr => Client.hold known ptr size
  | .c size ptr => Client.hold known ptr size
  | .f ptr => Client.drop known ptr
  | .r old size new => Client.hold (Client.drop known old) new size

/-- The script knows these blocks, with the byte counts asked for, and no others. -/
structure Knows (r : Replay) (known : List (Nat × Nat)) : Prop where
  keys : (known.map Prod.fst).Nodup
  live : ∀ ptr size, r.live ptr = some size ↔ (ptr, size) ∈ known
  req : r.liveReq = (known.map Prod.snd).sum
  real : r.liveReal = (known.map fun entry => chunkOf entry.2).sum

theorem Replay.replay_append (trace lines : List Record) :
    replay (trace ++ lines) = lines.foldl event (replay trace) :=
  List.foldl_append

section Replay

variable {r : Replay} {known : List (Nat × Nat)} {ptr size : Nat}

open Replay

theorem knows_initial : Knows initial [] :=
  ⟨List.nodup_nil, by simp [initial], rfl, rfl⟩

theorem Knows.add (h : Knows r known) (hfresh : ptr ∉ known.map Prod.fst) :
    Knows (r.add ptr size) ((ptr, size) :: known) := by
  refine ⟨List.nodup_cons.mpr ⟨hfresh, h.keys⟩, ?_, ?_, ?_⟩
  · intro p n
    change Function.update r.live ptr (some size) p = some n ↔ _
    by_cases hp : p = ptr
    · subst hp
      have hnot : (p, n) ∉ known := fun hmem => hfresh (List.mem_map_of_mem hmem)
      simp [hnot, eq_comm]
    · rw [Function.update_of_ne hp, h.live]
      simp [hp]
  · change r.liveReq + size = _
    rw [h.req]
    simp [add_comm]
  · change r.liveReal + chunkOf size = _
    rw [h.real]
    simp [add_comm]

/-- A known block and the others. -/
theorem Knows.perm_drop (h : Knows r known) (hmem : (ptr, size) ∈ known) :
    known.Perm ((ptr, size) :: Client.drop known ptr) := by
  obtain ⟨front, back, rfl⟩ := List.append_of_mem hmem
  have hperm : (front ++ (ptr, size) :: back).Perm ((ptr, size) :: (front ++ back)) :=
    List.perm_middle
  have hout : ∀ entry ∈ front ++ back, entry.1 ≠ ptr := by
    have hnodup := (hperm.map Prod.fst).nodup_iff.mp h.keys
    rw [List.map_cons, List.nodup_cons] at hnodup
    intro entry hentry heq
    exact hnodup.1 (List.mem_map.mpr ⟨entry, hentry, heq⟩)
  have hdrop : Client.drop (front ++ (ptr, size) :: back) ptr = front ++ back := by
    unfold Client.drop
    rw [List.filter_append, List.filter_cons_of_neg (by simp), ← List.filter_append]
    apply List.filter_eq_self.mpr
    intro entry hentry
    simpa using hout entry hentry
  rw [hdrop]
  exact hperm

theorem Knows.drop_unknown (h : Knows r known) (hnone : r.live ptr = none) :
    Client.drop known ptr = known := by
  apply List.filter_eq_self.mpr
  rintro ⟨p, n⟩ hentry
  have hne : p ≠ ptr := by
    rintro rfl
    rw [(h.live p n).mpr hentry] at hnone
    simp at hnone
  simpa using hne

theorem Knows.remove (h : Knows r known) : Knows (r.remove ptr) (Client.drop known ptr) := by
  unfold Replay.remove
  cases hlive : r.live ptr with
  | none =>
      rw [h.drop_unknown hlive]
      exact ⟨h.keys, h.live, h.req, h.real⟩
  | some size =>
      have hperm := h.perm_drop ((h.live ptr size).mp hlive)
      have hreq := (hperm.map Prod.snd).sum_eq
      have hreal := (hperm.map fun entry => chunkOf entry.2).sum_eq
      simp only [List.map_cons, List.sum_cons] at hreq hreal
      refine ⟨h.keys.sublist (List.filter_sublist.map Prod.fst), ?_, ?_, ?_⟩
      · intro p n
        change Function.update r.live ptr none p = some n ↔ _
        by_cases hp : p = ptr
        · simp [hp, Client.drop]
        · rw [Function.update_of_ne hp, h.live]
          simp [hp, Client.drop]
      · change r.liveReq - size = _
        rw [h.req]
        omega
      · change r.liveReal - chunkOf size = _
        rw [h.real]
        omega

/-- Only the peaks change, and they become the greater of the old and the present values. -/
theorem notePeaks_eq (r : Replay) : r.notePeaks.live = r.live ∧
    r.notePeaks.liveReq = r.liveReq ∧ r.notePeaks.liveReal = r.liveReal ∧
    r.notePeaks.peakReq = max r.peakReq r.liveReq ∧
    r.notePeaks.peakReal = max r.peakReal r.liveReal := by
  unfold notePeaks
  by_cases hreq : r.liveReq > r.peakReq
  · by_cases hreal : r.liveReal > r.peakReal
    · simp [hreq, hreal, max_eq_right_of_lt]
    · simp [hreq, hreal, max_eq_right_of_lt, max_eq_left (not_lt.mp hreal)]
  · by_cases hreal : r.liveReal > r.peakReal
    · simp [hreq, hreal, max_eq_right_of_lt, max_eq_left (not_lt.mp hreq)]
    · simp [hreq, hreal, max_eq_left (not_lt.mp hreq), max_eq_left (not_lt.mp hreal)]

theorem Knows.notePeaks (h : Knows r known) : Knows r.notePeaks known := by
  obtain ⟨hlive, hreq, hreal, _⟩ := notePeaks_eq r
  exact ⟨h.keys, hlive ▸ h.live, hreq.trans h.req, hreal.trans h.real⟩

theorem Knows.failed (h : Knows r known) (n : Nat) : Knows { r with failed := n } known :=
  ⟨h.keys, h.live, h.req, h.real⟩

theorem Knows.events (h : Knows r known) (n : Nat) : Knows { r with events := n } known :=
  ⟨h.keys, h.live, h.req, h.real⟩

theorem fresh_of_hold (hptr : ptr ≠ 0)
    (hkeys : ((Client.hold known ptr size).map Prod.fst).Nodup) : ptr ∉ known.map Prod.fst := by
  rw [Client.hold, if_neg hptr, List.map_cons, List.nodup_cons] at hkeys
  exact hkeys.1

/-- The branch of the loop for `m` and `c`. -/
theorem Knows.allocated (h : Knows r known)
    (hkeys : ((Client.hold known ptr size).map Prod.fst).Nodup) :
    Knows (r.event (.m size ptr)) (Client.hold known ptr size) := by
  have hstart := h.events (r.events + 1)
  by_cases hptr : ptr = 0
  · simpa [Replay.event, Client.hold, hptr] using hstart.failed _
  · have hadded : Knows _ ((ptr, size) :: known) := hstart.add (fresh_of_hold hptr hkeys)
    simpa [Replay.event, Client.hold, hptr] using hadded.notePeaks

/-- One line: the script's view follows, as long as no line adds a block that it knows
already. -/
theorem Knows.event {line : Record} (h : Knows r known) (hnull : Client.drop known 0 = known)
    (hkeys : ((line.track known).map Prod.fst).Nodup) :
    Knows (r.event line) (line.track known) := by
  have hstart := h.events (r.events + 1)
  cases line with
  | m size ptr => exact h.allocated hkeys
  | c size ptr => exact h.allocated hkeys
  | f ptr => exact hstart.remove.notePeaks
  | r old size new =>
      have hremoved : Knows (if old ≠ 0 then Replay.remove { r with events := r.events + 1 } old
          else { r with events := r.events + 1 }) (Client.drop known old) := by
        by_cases hold : old = 0
        · simpa [hold, hnull] using hstart
        · simpa [hold] using hstart.remove
      by_cases hnew : new = 0
      · by_cases hsize : size = 0
        · simpa [Replay.event, Record.track, Client.hold, hnew, hsize] using hremoved.notePeaks
        · simpa [Replay.event, Record.track, Client.hold, hnew, hsize] using
            (hremoved.failed _).notePeaks
      · have hadded : Knows _ ((new, size) :: Client.drop known old) :=
          hremoved.add (fresh_of_hold hnew hkeys)
        simpa [Replay.event, Record.track, Client.hold, hnew] using hadded.notePeaks

/-- The script's view after a call, which may have written a line. -/
theorem Knows.after {written : Option Record} (h : Knows r known)
    (hnull : Client.drop known 0 = known)
    (hkeys : ((written.elim known (Record.track known)).map Prod.fst).Nodup) :
    Knows (written.toList.foldl Replay.event r) (written.elim known (Record.track known)) := by
  cases written with
  | none => exact h
  | some line => exact h.event hnull hkeys

/-- Who knows fewer blocks before a line knows fewer after it. -/
theorem Record.track_sublist {known' : List (Nat × Nat)} (h : known.Sublist known')
    (line : Record) : (line.track known).Sublist (line.track known') := by
  have hhold : ∀ {small large : List (Nat × Nat)} (ptr size : Nat), small.Sublist large →
      (Client.hold small ptr size).Sublist (Client.hold large ptr size) := by
    intro small large ptr size hsub
    unfold Client.hold
    split
    · exact hsub
    · exact hsub.cons_cons _
  cases line with
  | m size ptr => exact hhold ptr size h
  | c size ptr => exact hhold ptr size h
  | f ptr => exact h.filter _
  | r old size new => exact hhold new size (h.filter _)

theorem remove_peaks (r : Replay) (ptr : Nat) :
    (r.remove ptr).peakReq = r.peakReq ∧ (r.remove ptr).peakReal = r.peakReal := by
  unfold Replay.remove
  cases r.live ptr with
  | none => exact ⟨rfl, rfl⟩
  | some size => exact ⟨rfl, rfl⟩

/-- The peaks of `r'` are those of `r`, or have been noted in `r'`. -/
def Replay.PeaksFrom (r r' : Replay) : Prop :=
  (r'.peakReq = r.peakReq ∧ r'.peakReal = r.peakReal) ∨
    (r'.peakReq = max r.peakReq r'.liveReq ∧ r'.peakReal = max r.peakReal r'.liveReal)

/-- The old block of a resize is removed and the new one added before the peaks are
noted. -/
theorem event_peaks (r : Replay) (line : Record) : PeaksFrom r (r.event line) := by
  have hnote : ∀ x : Replay, x.peakReq = r.peakReq ∧ x.peakReal = r.peakReal →
      x.notePeaks.peakReq = max r.peakReq x.notePeaks.liveReq ∧
        x.notePeaks.peakReal = max r.peakReal x.notePeaks.liveReal := by
    rintro x ⟨hreq, hreal⟩
    obtain ⟨_, hliveReq, hliveReal, hpeakReq, hpeakReal⟩ := notePeaks_eq x
    rw [hliveReq, hliveReal, hpeakReq, hpeakReal, hreq, hreal]
    exact ⟨rfl, rfl⟩
  have halloc : ∀ size ptr, PeaksFrom r (r.event (.m size ptr)) := by
    intro size ptr
    by_cases hptr : ptr = 0
    · exact Or.inl (by simp [Replay.event, hptr])
    · simp only [Replay.event, hptr, ↓reduceIte]
      exact Or.inr (hnote _ ⟨rfl, rfl⟩)
  cases line with
  | m size ptr => exact halloc size ptr
  | c size ptr => exact halloc size ptr
  | f ptr => exact Or.inr (hnote _ (remove_peaks { r with events := r.events + 1 } ptr))
  | r old size new =>
      refine Or.inr (hnote _ ?_)
      have hremoved : ∀ x : Replay, x.peakReq = r.peakReq ∧ x.peakReal = r.peakReal →
          (if old ≠ 0 then x.remove old else x).peakReq = r.peakReq ∧
            (if old ≠ 0 then x.remove old else x).peakReal = r.peakReal := by
        intro x hx
        by_cases hold : old = 0
        · simpa [hold] using hx
        · simpa [hold, remove_peaks] using hx
      have hstart := hremoved { r with events := r.events + 1 } ⟨rfl, rfl⟩
      by_cases hnew : new = 0
      · by_cases hsize : size = 0
        · simpa [hnew, hsize] using hstart
        · simpa [hnew, hsize] using hstart
      · simpa [hnew, Replay.add] using hstart

theorem peaks_after (r : Replay) (written : Option Record) :
    PeaksFrom r (written.toList.foldl Replay.event r) := by
  cases written with
  | none => exact Or.inl ⟨rfl, rfl⟩
  | some line => exact event_peaks r line

/-- A block takes at least what was asked for. -/
theorem le_chunkOf (size : Nat) : size ≤ chunkOf size := by
  unfold chunkOf tagSize
  omega

theorem chunkOf_mono : Monotone chunkOf := by
  intro size size' hle
  unfold chunkOf tagSize
  omega

theorem Knows.req_le_real (h : Knows r known) : r.liveReq ≤ r.liveReal := by
  rw [h.req, h.real]
  have hle : (known.map Prod.snd).sum ≤ (known.map fun entry => chunkOf entry.2).sum :=
    List.sum_le_sum fun entry _ => le_chunkOf entry.2
  exact_mod_cast hle

end Replay

end AllocSitter
