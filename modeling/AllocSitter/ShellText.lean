/-
Text as it passes through a shell: the commands that take lines and fields out of it, and
what a command substitution keeps.
-/
import AllocSitter.PlainText
import Mathlib.Data.List.DropRight

namespace ShellText

open PlainText

/-- The lines of a text; a last line without its newline is one too. -/
def lines (text : List Char) : List (List Char) :=
  let pieces := text.splitOn '\n'
  if pieces.getLast? = some [] then pieces.dropLast else pieces

/-- `head -n 1`.  Here and below a line is written with its newline even where the text ends
without one. -/
def headLine (text : List Char) : List Char := write ((lines text).take 1)

/-- `tail -n 1`. -/
def tailLine (text : List Char) : List Char := write (lines text).getLast?.toList

/-- A line of `cut`: the fields from `lo` to `hi`, or the whole line if it has no delimiter. -/
def cutLine (d : Char) (lo hi : Nat) (line : List Char) : List Char :=
  if d ∈ line then [d].intercalate (((line.splitOn d).take hi).drop (lo - 1)) else line

/-- `cut -d d -f lo-hi`. -/
def cut (d : Char) (lo hi : Nat) (text : List Char) : List Char :=
  write ((lines text).map (cutLine d lo hi))

/-- `$(...)`: what was written, without the newlines at the end. -/
def substitute (text : List Char) : List Char := text.rdropWhile (· == '\n')

/-- What a command has written, and its status. -/
structure Ended where
  out : List Char
  status : Nat

/-- A command that only fails if its input cannot be read, at the end of a pipe: without
`pipefail` the status of the first command is lost. -/
def Ended.pipe (first : Ended) (command : List Char → List Char) : Ended :=
  ⟨command first.out, 0⟩

section Lines

variable {line row : List Char} {written : List (List Char)}

theorem write_eq_intercalate (written : List (List Char)) (rest : List Char) :
    write written ++ rest = ['\n'].intercalate (written ++ [rest]) := by
  induction written with
  | nil => simp [write]
  | cons line written ih =>
      rw [List.cons_append, List.intercalate_cons_of_ne_nil (by simp), ← ih]
      simp [write]

/-- What was written line by line is read line by line. -/
theorem lines_write (h : ∀ line ∈ written, '\n' ∉ line) : lines (write written) = written := by
  have hpieces : (write written).splitOn '\n' = written ++ [[]] := by
    rw [← List.append_nil (write written), write_eq_intercalate]
    refine List.splitOn_intercalate '\n' ?_ (by simp)
    intro line hline
    rcases List.mem_append.mp hline with hline | hline
    · exact h line hline
    · rw [List.mem_singleton.mp hline]
      exact List.not_mem_nil
  rw [lines, hpieces]
  simp

theorem substitute_newline (text : List Char) : substitute (text ++ ['\n']) = substitute text := by
  rw [substitute, List.rdropWhile_concat, if_pos (beq_self_eq_true '\n'), substitute]

theorem substitute_line (h : '\n' ∉ line) : substitute line = line := by
  refine List.rdropWhile_eq_self_iff.mpr fun hne heq => ?_
  exact h ((beq_iff_eq.mp heq) ▸ List.getLast_mem hne)

theorem substitute_write (h : '\n' ∉ line) : substitute (write [line]) = line := by
  have hwrite : write [line] = line ++ ['\n'] := by simp [write]
  rw [hwrite, substitute_newline, substitute_line h]

/-- Nothing but the last newline is lost, if the last line has something in it. -/
theorem substitute_report (hrow : row ≠ []) (h : '\n' ∉ row) :
    substitute (write (written ++ [row])) ++ ['\n'] = write (written ++ [row]) := by
  have hwrite : write (written ++ [row]) = write written ++ row ++ ['\n'] := by simp [write]
  rw [hwrite, substitute_newline]
  congr 1
  refine List.rdropWhile_eq_self_iff.mpr fun hne heq => ?_
  rw [List.getLast_append_of_ne_nil hne hrow] at heq
  exact h ((beq_iff_eq.mp heq) ▸ List.getLast_mem hrow)

theorem substitute_headLine (h : ∀ other ∈ line :: written, '\n' ∉ other) :
    substitute (headLine (write (line :: written))) = line := by
  rw [headLine, lines_write h]
  exact substitute_write (h line List.mem_cons_self)

theorem substitute_tailLine (h : ∀ other ∈ written ++ [line], '\n' ∉ other) :
    substitute (tailLine (write (written ++ [line]))) = line := by
  rw [tailLine, lines_write h, List.getLast?_concat]
  exact substitute_write (h line (by simp))

end Lines

section Fields

variable {d : Char} {lo hi : Nat} {fields : List (List Char)}

/-- A character that is in no field and does not separate them. -/
theorem not_mem_intercalate {c : Char} (hne : c ≠ d) (h : ∀ field ∈ fields, c ∉ field) :
    c ∉ [d].intercalate fields := by
  induction fields with
  | nil => exact List.not_mem_nil
  | cons field fields ih =>
      have hfield := h field List.mem_cons_self
      have hrest := ih fun other hother => h other (List.mem_cons_of_mem field hother)
      by_cases hlast : fields = []
      · rw [hlast, List.intercalate_singleton]
        exact hfield
      · simp [List.intercalate_cons_of_ne_nil hlast, hfield, hne, hrest]

/-- The fields of a line that was put together from some. -/
theorem cutLine_intercalate (hmany : 2 ≤ fields.length) (h : ∀ field ∈ fields, d ∉ field) :
    cutLine d lo hi ([d].intercalate fields) = [d].intercalate ((fields.take hi).drop (lo - 1)) := by
  have hne : fields ≠ [] := by
    rintro rfl
    exact absurd hmany (by decide)
  have hmem : d ∈ [d].intercalate fields := by
    match fields, hmany with
    | first :: second :: rest, _ => simp [List.intercalate_cons_cons]
  rw [cutLine, if_pos hmem, List.splitOn_intercalate d h hne]

theorem intercalate_inj {fields' : List (List Char)} (hne : fields ≠ []) (hne' : fields' ≠ [])
    (h : ∀ field ∈ fields, d ∉ field) (h' : ∀ field ∈ fields', d ∉ field) :
    [d].intercalate fields = [d].intercalate fields' ↔ fields = fields' := by
  constructor
  · intro heq
    rw [← List.splitOn_intercalate d h hne, heq, List.splitOn_intercalate d h' hne']
  · rintro rfl
    rfl

end Fields

end ShellText
