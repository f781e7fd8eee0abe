/-
Text as a script reads it: lines, words between blanks, and numerals.  Numbers are written
with `Nat.toDigits`; reading them back is the business of this module.
-/
import Mathlib.Data.List.Basic
import Mathlib.Data.Nat.Digits.Defs

namespace PlainText

/-- The blanks among the ASCII characters. -/
def isBlank (c : Char) : Bool :=
  [' ', '\t', '\n', '\r', '\x0b', '\x0c', '\x1c', '\x1d', '\x1e', '\x1f'].contains c

/-- `str.split()`: the words between blanks, of which any number separate two words. -/
def words (text : List Char) : List (List Char) :=
  (text.splitOnP isBlank).filter fun word => !word.isEmpty

/-- A file opened as text has `\n` for every kind of line end. -/
def unifyNewlines : List Char → List Char
  | '\r' :: '\n' :: rest => '\n' :: unifyNewlines rest
  | '\r' :: rest => '\n' :: unifyNewlines rest
  | c :: rest => c :: unifyNewlines rest
  | [] => []

/-- The lines of a file, without the characters that end them; what follows the last line
end is a line only if there is something. -/
def lines (text : List Char) : List (List Char) :=
  let pieces := (unifyNewlines text).splitOnP (· == '\n')
  if pieces.getLast? = some [] then pieces.dropLast else pieces

/-- The value of a digit, up to base 36. -/
def digitValue (c : Char) : Option Nat :=
  if '0' ≤ c ∧ c ≤ '9' then some (c.toNat - '0'.toNat)
  else if 'a' ≤ c ∧ c ≤ 'z' then some (c.toNat - 'a'.toNat + 10)
  else if 'A' ≤ c ∧ c ≤ 'Z' then some (c.toNat - 'A'.toNat + 10)
  else none

def digitIn (base : Nat) (c : Char) : Option Nat :=
  match digitValue c with
  | some d => if d < base then some d else none
  | none => none

/-- The number that a sequence of digits stands for. -/
def readDigits (base : Nat) : Nat → List Char → Option Nat
  | acc, [] => some acc
  | acc, c :: rest =>
      match digitIn base c with
      | some d => readDigits base (acc * base + d) rest
      | none => none

/-- Digits, with single underscores between them. -/
def readNumeral (base : Nat) (text : List Char) : Option Nat :=
  if (text.splitOnP (· == '_')).any List.isEmpty then none
  else readDigits base 0 (text.filter (· != '_'))

/-- A hexadecimal numeral may start with `0x`, also before an underscore. -/
def dropBaseMark (base : Nat) (text : List Char) : List Char :=
  match text with
  | '0' :: c :: rest =>
      if base = 16 ∧ (c = 'x' ∨ c = 'X') then
        (match rest with
        | '_' :: digits => digits
        | digits => digits)
      else text
  | _ => text

/-- `int(text, base)` for a word, which has no blanks around it. -/
def readInt (base : Nat) (text : List Char) : Option Int :=
  match text with
  | '-' :: rest => (readNumeral base (dropBaseMark base rest)).map fun n => -(n : Int)
  | '+' :: rest => (readNumeral base (dropBaseMark base rest)).map Int.ofNat
  | _ => (readNumeral base (dropBaseMark base text)).map Int.ofNat

section Numerals

variable {base n : Nat}

theorem readDigits_append (acc : Nat) (front back : List Char) :
    readDigits base acc (front ++ back) =
      (readDigits base acc front).bind fun value => readDigits base value back := by
  induction front generalizing acc with
  | nil => rfl
  | cons c front ih =>
      simp only [List.cons_append, readDigits]
      cases digitIn base c with
      | none => rfl
      | some d => exact ih _

theorem digitValue_digitChar : ∀ d < 16, digitValue (Nat.digitChar d) = some d := by decide

theorem digitIn_digitChar {d : Nat} (hd : d < 16) (hbase : d < base) :
    digitIn base (Nat.digitChar d) = some d := by
  simp [digitIn, digitValue_digitChar d hd, hbase]

/-- The digits of a number are read back. -/
theorem readDigits_toDigits (hlow : 1 < base) (hhigh : base ≤ 16) (n : Nat) :
    readDigits base 0 (Nat.toDigits base n) = some n := by
  induction n using Nat.strong_induction_on with
  | _ n ih =>
      by_cases hn : n < base
      · rw [Nat.toDigits_of_lt_base hn, readDigits, digitIn_digitChar (by omega) hn]
        simp [readDigits]
      · have hle : base ≤ n := Nat.not_lt.mp hn
        have hsmaller : n / base < n := Nat.div_lt_self (by omega) hlow
        have hdigit : n % base < base := Nat.mod_lt n (by omega)
        rw [Nat.toDigits_of_base_le hlow hle, readDigits_append, ih _ hsmaller, Option.bind_some,
          readDigits, digitIn_digitChar (by omega) hdigit]
        simp only [readDigits, Option.some.injEq]
        rw [Nat.mul_comm]
        exact Nat.div_add_mod n base

/-- A character of a numeral is a digit. -/
theorem mem_toDigits (hlow : 1 < base) {c : Char} (hc : c ∈ Nat.toDigits base n) :
    ∃ d < base, c = Nat.digitChar d := by
  induction n using Nat.strong_induction_on with
  | _ n ih =>
      by_cases hn : n < base
      · rw [Nat.toDigits_of_lt_base hn, List.mem_singleton] at hc
        exact ⟨n, hn, hc⟩
      · have hsmaller : n / base < n := Nat.div_lt_self (by omega) hlow
        rw [Nat.toDigits_of_base_le hlow (Nat.not_lt.mp hn), List.mem_append,
          List.mem_singleton] at hc
        rcases hc with hc | hc
        · exact ih _ hsmaller hc
        · exact ⟨n % base, Nat.mod_lt n (by omega), hc⟩

/-- What is no digit does not occur in a numeral. -/
theorem ne_of_mem_toDigits (hlow : 1 < base) (hhigh : base ≤ 16) {c : Char}
    (hc : c ∈ Nat.toDigits base n) : isBlank c = false ∧ c ≠ '_' ∧ c ≠ 'x' ∧ c ≠ 'X' ∧
      c ≠ '-' ∧ c ≠ '+' := by
  obtain ⟨d, hd, rfl⟩ := mem_toDigits hlow hc
  have hdigit : d < 16 := by omega
  clear hd hc
  revert d
  decide

theorem readNumeral_toDigits (hlow : 1 < base) (hhigh : base ≤ 16) (n : Nat) :
    readNumeral base (Nat.toDigits base n) = some n := by
  have hplain : ∀ c ∈ Nat.toDigits base n, (c == '_') = false := by
    intro c hc
    simpa using (ne_of_mem_toDigits hlow hhigh hc).2.1
  have hsplit := List.splitOnP_eq_singleton hplain
  have hfilter : (Nat.toDigits base n).filter (· != '_') = Nat.toDigits base n := by
    apply List.filter_eq_self.mpr
    intro c hc
    simpa using (ne_of_mem_toDigits hlow hhigh hc).2.1
  have hpos : (Nat.toDigits base n).isEmpty = false := by
    simp
  rw [readNumeral, hsplit, hfilter, readDigits_toDigits hlow hhigh]
  simp [hpos]

/-- A numeral has no sign and no mark of its base, so that `int` reads its digits. -/
theorem readInt_toDigits (hlow : 1 < base) (hhigh : base ≤ 16) (n : Nat) :
    readInt base (Nat.toDigits base n) = some (n : Int) := by
  have hplain := fun c hc => ne_of_mem_toDigits (c := c) (n := n) hlow hhigh hc
  have hnumeral := readNumeral_toDigits hlow hhigh n
  have hunmarked : dropBaseMark base (Nat.toDigits base n) = Nat.toDigits base n := by
    unfold dropBaseMark
    split
    · next c rest heq =>
        obtain ⟨_, _, hx, hX, _⟩ := hplain c (by rw [heq]; simp)
        simp [hx, hX, heq]
    · rfl
  unfold readInt
  split
  · next rest heq => exact absurd rfl (hplain '-' (by rw [heq]; simp)).2.2.2.2.1
  · next rest heq => exact absurd rfl (hplain '+' (by rw [heq]; simp)).2.2.2.2.2
  · rw [hunmarked, hnumeral]
    rfl

end Numerals

section Words

variable {word text : List Char}

/-- A word without blanks, one blank, and the rest of the text. -/
theorem words_cons (hne : word ≠ []) (hword : ∀ c ∈ word, isBlank c = false) {blank : Char}
    (hblank : isBlank blank = true) (text : List Char) :
    words (word ++ blank :: text) = word :: words text := by
  rw [words, List.splitOnP_append_cons_of_forall_mem hword blank hblank,
    List.filter_cons_of_pos (by simpa using hne)]
  rfl

theorem words_single (hne : word ≠ []) (hword : ∀ c ∈ word, isBlank c = false) :
    words word = [word] := by
  rw [words, List.splitOnP_eq_singleton hword, List.filter_cons_of_pos (by simpa using hne),
    List.filter_nil]

end Words

section Lines

theorem unifyNewlines_eq_self {text : List Char} (h : '\r' ∉ text) :
    unifyNewlines text = text := by
  fun_induction unifyNewlines text with
  | case1 rest ih => simp at h
  | case2 rest hnot ih => simp at h
  | case3 c rest hother hother' ih => rw [ih (by simp_all)]
  | case4 => rfl

/-- Lines with their line ends. -/
def write (written : List (List Char)) : List Char := written.flatMap fun line => line ++ ['\n']

/-- A line without line ends inside. -/
def PlainLine (line : List Char) : Prop := '\n' ∉ line ∧ '\r' ∉ line

theorem PlainLine.splits {line : List Char} (h : PlainLine line) :
    ∀ c ∈ line, (c == '\n') = false := by
  intro c hc
  have hne : c ≠ '\n' := fun heq => h.1 (heq ▸ hc)
  simpa using hne

/-- The lines of a text that was written line by line, the last one perhaps not to its
end. -/
theorem lines_write_append (written : List (List Char)) {rest : List Char}
    (hplain : ∀ line ∈ written, PlainLine line) (hrest : PlainLine rest) :
    lines (write written ++ rest) = written ++ if rest = [] then [] else [rest] := by
  have hunified : unifyNewlines (write written ++ rest) = write written ++ rest := by
    apply unifyNewlines_eq_self
    intro hmem
    rcases List.mem_append.mp hmem with hmem | hmem
    · obtain ⟨line, hline, hin⟩ := List.mem_flatMap.mp hmem
      have hreturn := (hplain line hline).2
      simp [hreturn] at hin
    · exact hrest.2 hmem
  have hpieces : (write written ++ rest).splitOnP (· == '\n') = written ++ [rest] := by
    clear hunified
    induction written with
    | nil => exact List.splitOnP_eq_singleton hrest.splits
    | cons line written ih =>
        have hline := hplain line List.mem_cons_self
        rw [write, List.flatMap_cons, List.append_assoc, List.append_assoc, List.singleton_append,
          List.splitOnP_append_cons_of_forall_mem hline.splits _ rfl]
        exact congrArg (line :: ·)
          (ih fun other hother => hplain other (List.mem_cons_of_mem line hother))
  rw [lines, hunified, hpieces]
  by_cases hend : rest = []
  · simp [hend]
  · simp [hend]

/-- A part of a written text, up to any of its characters. -/
theorem take_write (written : List (List Char)) (k : Nat) :
    ∃ front rest, front <+: written ∧ (write written).take k = write front ++ rest ∧
      (rest = [] ∨ ∃ line, front ++ [line] <+: written ∧ rest <+: line) := by
  induction written generalizing k with
  | nil => exact ⟨[], [], List.prefix_rfl, by simp [write], Or.inl rfl⟩
  | cons line written ih =>
      have hwrite : write (line :: written) = (line ++ ['\n']) ++ write written := by
        simp [write]
      by_cases hk : k ≤ line.length
      · -- The cut is in the first line.
        refine ⟨[], line.take k, List.nil_prefix, ?_, Or.inr ⟨line, ?_, List.take_prefix k line⟩⟩
        · rw [hwrite, List.append_assoc, List.take_append_of_le_length hk]
          rfl
        · exact (List.prefix_cons_inj line).mpr List.nil_prefix
      · obtain ⟨front, rest, hfront, htake, hrest⟩ := ih (k - (line ++ ['\n']).length)
        refine ⟨line :: front, rest, (List.prefix_cons_inj line).mpr hfront, ?_, ?_⟩
        · rw [hwrite, List.take_append, List.take_of_length_le (by simp; omega), htake,
            ← List.append_assoc]
          simp [write]
        · rcases hrest with hrest | ⟨next, hnext, hpart⟩
          · exact Or.inl hrest
          · exact Or.inr ⟨next, (List.prefix_cons_inj line).mpr hnext, hpart⟩

end Lines

end PlainText
