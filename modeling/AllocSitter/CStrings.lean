/-
Strings that end at their first zero byte, and the functions of `string.h` on them.  The
comparison is the lexicographic order of the bytes.
-/
import Mathlib.Algebra.Group.Int.Defs
import Mathlib.Algebra.Group.Nat.Defs
import Mathlib.Data.Fin.Basic
import Mathlib.Data.List.Infix
import Mathlib.Data.List.Lex
import Mathlib.Data.List.Sort
import Mathlib.Order.Fin.Basic

namespace CStrings

/-- A byte that does not end a string, as `unsigned char`. -/
abbrev Byte := {c : Fin 256 // c ≠ 0}

abbrev CString := List Byte

def dash : Byte := ⟨45, by decide⟩

def slash : Byte := ⟨47, by decide⟩

/-- The string of an ASCII literal. -/
def ascii (text : List Char) : CString :=
  text.filterMap fun c =>
    if h : Fin.ofNat 256 c.toNat ≠ 0 then some ⟨Fin.ofNat 256 c.toNat, h⟩ else none

/-- The difference of the first bytes that differ, of which one may be the end. -/
def strcmp : CString → CString → Int
  | [], [] => 0
  | [], d :: _ => -(d.val.val : Int)
  | c :: _, [] => c.val.val
  | c :: s, d :: t => if c = d then strcmp s t else (c.val.val : Int) - d.val.val

/-- No more than `n` bytes are compared. -/
def strncmp (s t : CString) (n : Nat) : Int := strcmp (s.take n) (t.take n)

/-- The blanks of the C locale. -/
def isSpace (c : Byte) : Bool := c.val = 32 || (9 ≤ c.val && c.val ≤ 13)

/-- The number that the digits at the front stand for. -/
def leadingDigits : Nat → CString → Nat
  | acc, [] => acc
  | acc, c :: rest =>
      if 48 ≤ c.val ∧ c.val ≤ 57 then leadingDigits (acc * 10 + (c.val.val - 48)) rest else acc

/-- `strtol` in base 10: what does not fit into a `long` becomes the nearest bound. -/
def strtol (s : CString) : Int :=
  let magnitude (negative : Bool) (s : CString) : Int :=
    if negative then max (-(leadingDigits 0 s : Int)) (-2 ^ 63)
    else min (leadingDigits 0 s) (2 ^ 63 - 1)
  match s.dropWhile isSpace with
  | [] => 0
  | c :: rest =>
      if c = dash then magnitude true rest
      else if c.val = 43 then magnitude false rest
      else magnitude false (c :: rest)

/-- `(int)strtol(s, NULL, 10)`. -/
def atoi (s : CString) : Int := (strtol s).bmod (2 ^ 32)

theorem Byte.pos (c : Byte) : 0 < c.val.val := Nat.pos_of_ne_zero fun h => c.2 (Fin.ext h)

theorem strcmp_neg_iff (s t : CString) : strcmp s t < 0 ↔ s < t := by
  induction s generalizing t with
  | nil =>
      cases t with
      | nil => simp [strcmp]
      | cons d t =>
          have hd := d.pos
          simp only [strcmp, List.nil_lt_cons, iff_true]
          omega
  | cons c s ih =>
      cases t with
      | nil => simp [strcmp]
      | cons d t =>
          rw [strcmp, List.cons_lt_cons_iff]
          split
          · next heq =>
            subst heq
            simp [ih]
          · next hne =>
            have hval : c < d ↔ c.val.val < d.val.val := Iff.rfl
            simp only [hne, false_and, or_false, hval]
            omega

theorem strcmp_swap (s t : CString) : strcmp t s = -strcmp s t := by
  induction s generalizing t with
  | nil => cases t <;> simp [strcmp]
  | cons c s ih =>
      cases t with
      | nil => simp [strcmp]
      | cons d t =>
          rw [strcmp, strcmp]
          by_cases heq : c = d
          · simp [heq, ih]
          · rw [if_neg heq, if_neg (Ne.symm heq)]
            omega

theorem strcmp_nonpos_iff {s t : CString} : strcmp s t ≤ 0 ↔ s ≤ t := by
  have hswap := strcmp_swap s t
  have hless := strcmp_neg_iff t s
  constructor
  · intro hle
    exact not_lt.mp fun hlt => by have := hless.mpr hlt; omega
  · intro hle
    have hge := mt hless.mp (not_lt.mpr hle)
    omega

@[simp] theorem strcmp_eq_zero_iff {s t : CString} : strcmp s t = 0 ↔ s = t := by
  have hswap := strcmp_swap s t
  calc strcmp s t = 0
      ↔ strcmp s t ≤ 0 ∧ strcmp t s ≤ 0 := by omega
    _ ↔ s ≤ t ∧ t ≤ s := by rw [strcmp_nonpos_iff, strcmp_nonpos_iff]
    _ ↔ s = t := le_antisymm_iff.symm

/-- A comparison over the length of the second string looks for it at the front. -/
theorem strncmp_eq_zero_iff {s t : CString} : strncmp s t t.length = 0 ↔ t <+: s := by
  rw [strncmp, strcmp_eq_zero_iff, List.take_length, List.prefix_iff_eq_take]
  exact eq_comm

section Sorting

variable {β : Type} (key : β → CString)

/-- Sorting by a string, as `qsort` with `strcmp` does. -/
def sortBy (xs : List β) : List β := xs.insertionSort fun x y => strcmp (key x) (key y) ≤ 0

variable {key} {xs ys : List β}

theorem sortBy_perm : (sortBy key xs).Perm xs := List.perm_insertionSort _ xs

theorem sortBy_pairwise : (sortBy key xs).Pairwise fun x y => strcmp (key x) (key y) ≤ 0 := by
  have : Std.Total fun x y : β => strcmp (key x) (key y) ≤ 0 :=
    ⟨fun x y => by simp only [strcmp_nonpos_iff, le_total]⟩
  have : IsTrans β fun x y => strcmp (key x) (key y) ≤ 0 :=
    ⟨fun x y z => by simpa only [strcmp_nonpos_iff] using le_trans⟩
  exact List.pairwise_insertionSort _ xs

/-- Whichever way the elements are sorted, and in whichever order they came: the result is
the same where elements of one key do not differ. -/
theorem eq_sortBy (hkey : ∀ x ∈ xs, ∀ y ∈ xs, key x = key y → x = y) (hperm : ys.Perm xs)
    (hsorted : ys.Pairwise fun x y => strcmp (key x) (key y) ≤ 0) : ys = sortBy key xs := by
  refine (hperm.trans sortBy_perm.symm).eq_of_pairwise ?_ hsorted sortBy_pairwise
  intro x y hx hy hxy hyx
  rw [strcmp_nonpos_iff] at hxy hyx
  exact hkey x (hperm.mem_iff.mp hx) y (sortBy_perm.mem_iff.mp hy) (le_antisymm hxy hyx)

end Sorting

end CStrings
