/-
The trace as text: the lines that the wrappers of `bench/driver.c` print, and the part of
`bench/analyze_trace.py` that takes them apart again.
-/
import AllocSitter.PlainText
import AllocSitter.ReplayLoop

namespace AllocSitter

open PlainText

/-- `%zu`. -/
def decimal (n : Nat) : List Char := Nat.toDigits 10 n

/-- `%lx`. -/
def hexadecimal (n : Nat) : List Char := Nat.toDigits 16 n

/-- What `fprintf` writes for a line, up to the newline. -/
def Record.print : Record → List Char
  | .m size ptr => 'm' :: ' ' :: (decimal size ++ ' ' :: hexadecimal ptr)
  | .c size ptr => 'c' :: ' ' :: (decimal size ++ ' ' :: hexadecimal ptr)
  | .f ptr => 'f' :: ' ' :: hexadecimal ptr
  | .r old size new =>
      'r' :: ' ' :: (hexadecimal old ++ ' ' :: (decimal size ++ ' ' :: hexadecimal new))

/-- The file after the lines of a trace. -/
def printTrace (trace : List Record) : List Char := write (trace.map Record.print)

/-- What ends the script: a field that is missing, or one that is no number.  A negative
number would not end it, but the wrappers print none, and the model stops there. -/
inductive ScriptError where
  | indexError
  | valueError
  | negative
deriving Repr, DecidableEq

/-- `int(parts[i], base)`. -/
def number (base : Nat) (parts : List (List Char)) (i : Nat) : Except ScriptError Nat :=
  match parts[i]? with
  | none => .error .indexError
  | some word =>
      match readInt base word with
      | none => .error .valueError
      | some (.ofNat n) => .ok n
      | some (.negSucc _) => .error .negative

/-- What the loop makes of a line. -/
inductive Line where
  | blank
  | known (record : Record)
  | unknown
deriving Repr, DecidableEq

/-- The tests of the loop's body on the words of a line.  Words behind the fields of a
record are not looked at. -/
def readLine (line : List Char) : Except ScriptError Line :=
  let parts := words line
  match parts with
  | [] => .ok .blank
  | op :: _ =>
      if op = ['m'] then do
        let size ← number 10 parts 1
        let ptr ← number 16 parts 2
        .ok (.known (.m size ptr))
      else if op = ['c'] then do
        let size ← number 10 parts 1
        let ptr ← number 16 parts 2
        .ok (.known (.c size ptr))
      else if op = ['f'] then do
        let ptr ← number 16 parts 1
        .ok (.known (.f ptr))
      else if op = ['r'] then do
        let old ← number 16 parts 1
        let size ← number 10 parts 2
        let new ← number 16 parts 3
        .ok (.known (.r old size new))
      else .ok .unknown

/-- One turn of the loop.  A line that is not understood is counted, and said to be so. -/
def Replay.line (r : Replay) (line : List Char) : Except ScriptError Replay :=
  match readLine line with
  | .error e => .error e
  | .ok .blank => .ok r
  | .ok (.known record) => .ok (r.event record)
  | .ok .unknown => .ok { r with events := r.events + 1 }

/-- The whole file. -/
def Replay.file (text : List Char) : Except ScriptError Replay :=
  (lines text).foldlM Replay.line Replay.initial

section RoundTrip

theorem decimal_plain (n : Nat) : decimal n ≠ [] ∧ ∀ c ∈ decimal n, isBlank c = false :=
  ⟨by simp [decimal], fun _ hc => (ne_of_mem_toDigits (by decide) (by decide) hc).1⟩

theorem hexadecimal_plain (n : Nat) :
    hexadecimal n ≠ [] ∧ ∀ c ∈ hexadecimal n, isBlank c = false :=
  ⟨by simp [hexadecimal], fun _ hc => (ne_of_mem_toDigits (by decide) (by decide) hc).1⟩

theorem number_decimal {parts : List (List Char)} {i n : Nat}
    (hpart : parts[i]? = some (decimal n)) : number 10 parts i = .ok n := by
  rw [number, hpart]
  simp only [decimal, readInt_toDigits (show 1 < 10 by decide) (by decide)]

theorem number_hexadecimal {parts : List (List Char)} {i n : Nat}
    (hpart : parts[i]? = some (hexadecimal n)) : number 16 parts i = .ok n := by
  rw [number, hpart]
  simp only [hexadecimal, readInt_toDigits (show 1 < 16 by decide) (by decide)]

theorem words_letter {c : Char} (hc : isBlank c = false) (text : List Char) :
    words (c :: ' ' :: text) = [c] :: words text :=
  words_cons (List.cons_ne_nil c []) (by simpa using hc) rfl text

theorem words_decimal (n : Nat) (text : List Char) :
    words (decimal n ++ ' ' :: text) = decimal n :: words text :=
  words_cons (decimal_plain n).1 (decimal_plain n).2 rfl text

theorem words_hexadecimal (n : Nat) (text : List Char) :
    words (hexadecimal n ++ ' ' :: text) = hexadecimal n :: words text :=
  words_cons (hexadecimal_plain n).1 (hexadecimal_plain n).2 rfl text

theorem words_last (n : Nat) : words (hexadecimal n) = [hexadecimal n] :=
  words_single (hexadecimal_plain n).1 (hexadecimal_plain n).2

/-- A line that was printed is read back. -/
theorem readLine_print (line : Record) : readLine line.print = .ok (.known line) := by
  cases line with
  | m size ptr =>
      have hwords : words (Record.print (.m size ptr)) =
          [['m'], decimal size, hexadecimal ptr] := by
        rw [Record.print, words_letter rfl, words_decimal, words_last]
      simp only [readLine, hwords, ↓reduceIte]
      rw [number_decimal (n := size) rfl, number_hexadecimal (n := ptr) rfl]
      rfl
  | c size ptr =>
      have hwords : words (Record.print (.c size ptr)) =
          [['c'], decimal size, hexadecimal ptr] := by
        rw [Record.print, words_letter rfl, words_decimal, words_last]
      have hm : ['c'] ≠ ['m'] := by decide
      simp only [readLine, hwords, hm, ↓reduceIte]
      rw [number_decimal (n := size) rfl, number_hexadecimal (n := ptr) rfl]
      rfl
  | f ptr =>
      have hwords : words (Record.print (.f ptr)) = [['f'], hexadecimal ptr] := by
        rw [Record.print, words_letter rfl, words_last]
      have hm : ['f'] ≠ ['m'] := by decide
      have hc : ['f'] ≠ ['c'] := by decide
      simp only [readLine, hwords, hm, hc, ↓reduceIte]
      rw [number_hexadecimal (n := ptr) rfl]
      rfl
  | r old size new =>
      have hwords : words (Record.print (.r old size new)) =
          [['r'], hexadecimal old, decimal size, hexadecimal new] := by
        rw [Record.print, words_letter rfl, words_hexadecimal, words_decimal, words_last]
      have hm : ['r'] ≠ ['m'] := by decide
      have hc : ['r'] ≠ ['c'] := by decide
      have hf : ['r'] ≠ ['f'] := by decide
      simp only [readLine, hwords, hm, hc, hf, ↓reduceIte]
      rw [number_hexadecimal (n := old) rfl, number_decimal (n := size) rfl,
        number_hexadecimal (n := new) rfl]
      rfl

theorem print_injective : Function.Injective Record.print := by
  intro line line' heq
  have hread := (readLine_print line).symm.trans (heq ▸ readLine_print line')
  simpa using hread

/-- A printed line has no line end inside. -/
theorem print_plain (line : Record) : PlainLine line.print := by
  have hdec : ∀ n, '\n' ∉ decimal n ∧ '\r' ∉ decimal n := fun n =>
    ⟨fun hc => absurd ((decimal_plain n).2 _ hc) (by decide),
      fun hc => absurd ((decimal_plain n).2 _ hc) (by decide)⟩
  have hhex : ∀ n, '\n' ∉ hexadecimal n ∧ '\r' ∉ hexadecimal n := fun n =>
    ⟨fun hc => absurd ((hexadecimal_plain n).2 _ hc) (by decide),
      fun hc => absurd ((hexadecimal_plain n).2 _ hc) (by decide)⟩
  cases line <;> simp [PlainLine, Record.print, hdec, hhex]

theorem lines_printTrace (trace : List Record) {rest : List Char} (hrest : PlainLine rest) :
    lines (printTrace trace ++ rest) =
      trace.map Record.print ++ if rest = [] then [] else [rest] := by
  refine lines_write_append _ (fun line hline => ?_) hrest
  obtain ⟨record, _, rfl⟩ := List.mem_map.mp hline
  exact print_plain record

theorem foldlM_print (trace : List Record) (r : Replay) :
    (trace.map Record.print).foldlM Replay.line r = .ok (trace.foldl Replay.event r) := by
  induction trace generalizing r with
  | nil => rfl
  | cons line rest ih =>
      rw [List.map_cons, List.foldlM_cons, List.foldl_cons]
      have hline : r.line line.print = .ok (r.event line) := by
        rw [Replay.line, readLine_print]
      rw [hline]
      exact ih (r.event line)

theorem file_append (trace : List Record) {rest : List Char} (hrest : PlainLine rest) :
    Replay.file (printTrace trace ++ rest) =
      if rest = [] then .ok (Replay.replay trace) else (Replay.replay trace).line rest := by
  rw [Replay.file, lines_printTrace trace hrest, List.foldlM_append, foldlM_print]
  by_cases hend : rest = []
  · simp only [hend, ↓reduceIte]
    rfl
  · simp only [hend, ↓reduceIte, List.foldlM_cons, List.foldlM_nil]
    exact bind_pure ((Replay.replay trace).line rest)

theorem plainLine_nil : PlainLine [] := ⟨by simp, by simp⟩

/-- The file that the wrappers write is read without an error, and the script then has the
variables that the records themselves give; and different traces make different files. -/
theorem file_of_trace : (∀ trace, Replay.file (printTrace trace) = .ok (Replay.replay trace)) ∧
    Function.Injective printTrace := by
  refine ⟨fun trace => by simpa using file_append trace plainLine_nil, fun trace trace' heq => ?_⟩
  have hlines := lines_printTrace trace plainLine_nil
  rw [heq, lines_printTrace trace' plainLine_nil] at hlines
  simp only [↓reduceIte, List.append_nil] at hlines
  exact (List.map_injective_iff.mpr print_injective hlines).symm

/-- A file that ends anywhere, as that of a run which was stopped: the lines that are
complete count as they were recorded, and what is left is one line, a part of the next
one. -/
theorem file_of_cut_trace (trace : List Record) (k : Nat) :
    ∃ front rest, front <+: trace ∧ (printTrace trace).take k = printTrace front ++ rest ∧
      (rest = [] ∨ ∃ line, front ++ [line] <+: trace ∧ rest <+: line.print) ∧
      Replay.file ((printTrace trace).take k) =
        if rest = [] then .ok (Replay.replay front) else (Replay.replay front).line rest := by
  obtain ⟨written, rest, hwritten, htake, hrest⟩ := take_write (trace.map Record.print) k
  obtain ⟨front, hfront, rfl⟩ := List.prefix_map_iff.mp hwritten
  have hnext : rest = [] ∨ ∃ line, front ++ [line] <+: trace ∧ rest <+: line.print := by
    rcases hrest with hrest | ⟨text, htext, hpart⟩
    · exact Or.inl hrest
    · obtain ⟨longer, hlonger, heq⟩ := List.prefix_map_iff.mp htext
      obtain ⟨front', last, rfl, hsame, hlast⟩ := List.map_eq_append_iff.mp heq.symm
      obtain ⟨line, rfl, rfl⟩ := List.map_eq_singleton_iff.mp hlast
      obtain rfl := List.map_injective_iff.mpr print_injective hsame
      exact Or.inr ⟨line, hlonger, hpart⟩
  have hplain : PlainLine rest := by
    rcases hnext with rfl | ⟨line, _, hpart⟩
    · exact plainLine_nil
    · obtain ⟨hnewline, hreturn⟩ := print_plain line
      exact ⟨fun hc => hnewline (hpart.subset hc), fun hc => hreturn (hpart.subset hc)⟩
  refine ⟨front, rest, hfront, htake, hnext, ?_⟩
  rw [printTrace, htake]
  exact file_append front hplain

end RoundTrip

end AllocSitter
