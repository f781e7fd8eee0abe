/-
Intervals that lie apart from each other inside a region have no more room than it.
-/
import Mathlib.Algebra.BigOperators.Group.List.Basic
import Mathlib.Algebra.GroupWithZero.Nat
import Mathlib.Order.Interval.Finset.Nat

namespace Intervals

universe u

variable {β : Type u} (start len : β → Nat)

/-- The intervals of the list lie apart from each other. -/
def Apart (xs : List β) : Prop :=
  xs.Pairwise fun x y => start x + len x ≤ start y ∨ start y + len y ≤ start x

/-- The points that the intervals cover. -/
def cover : List β → Finset Nat
  | [] => ∅
  | x :: rest => Finset.Ico (start x) (start x + len x) ∪ cover rest

variable {start len} {xs : List β} {lo hi : Nat}

theorem mem_cover {n : Nat} :
    n ∈ cover start len xs ↔ ∃ x ∈ xs, start x ≤ n ∧ n < start x + len x := by
  induction xs with
  | nil => simp [cover]
  | cons x rest ih => simp [cover, ih]

theorem Apart.card_cover (h : Apart start len xs) :
    (cover start len xs).card = (xs.map len).sum := by
  induction xs with
  | nil => rfl
  | cons x rest ih =>
      obtain ⟨hx, hrest⟩ := List.pairwise_cons.mp h
      have hdisjoint : Disjoint (Finset.Ico (start x) (start x + len x)) (cover start len rest) := by
        rw [Finset.disjoint_left]
        intro n hn hcovered
        obtain ⟨hlow, hhigh⟩ := Finset.mem_Ico.mp hn
        obtain ⟨y, hy, hlow', hhigh'⟩ := mem_cover.mp hcovered
        have hapart := hx y hy
        omega
      rw [cover, Finset.card_union_of_disjoint hdisjoint, ih hrest, Nat.card_Ico, List.map_cons,
        List.sum_cons]
      omega

/-- The lengths add up to at most the size of the region. -/
theorem Apart.sum_le (h : Apart start len xs)
    (hinside : ∀ x ∈ xs, lo ≤ start x ∧ start x + len x ≤ hi) :
    (xs.map len).sum ≤ hi - lo := by
  have hsub : cover start len xs ⊆ Finset.Ico lo hi := by
    intro n hn
    obtain ⟨x, hx, hlow, hhigh⟩ := mem_cover.mp hn
    obtain ⟨hlo, hhi⟩ := hinside x hx
    exact Finset.mem_Ico.mpr ⟨by omega, by omega⟩
  have hcard := Finset.card_le_card hsub
  rw [h.card_cover, Nat.card_Ico] at hcard
  exact hcard

end Intervals
