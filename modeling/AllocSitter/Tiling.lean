/-
Lists of intervals that follow each other without overlap, with gaps or without.
The intervals are read off an arbitrary type of blocks by a start and a length.
-/
import Mathlib.Data.List.Basic
import Mathlib.Algebra.BigOperators.Group.List.Basic
import Mathlib.Algebra.GroupWithZero.Nat

namespace Tiling

universe u

variable {β : Type u} (addr size : β → Nat)

/-- `blocks` cover `[lo, hi)` from left to right, each starting where the one
before ends. -/
def Tiles : Nat → List β → Nat → Prop
  | lo, [], hi => lo = hi
  | lo, block :: rest, hi => addr block = lo ∧ Tiles (lo + size block) rest hi

/-- `blocks` lie in `[lo, hi)` from left to right, each starting where the one
before ends or later. -/
def Spread : Nat → List β → Nat → Prop
  | lo, [], hi => lo ≤ hi
  | lo, block :: rest, hi => lo ≤ addr block ∧ Spread (addr block + size block) rest hi

variable {addr size} {lo hi : Nat} {blocks front mid back : List β}

section Spread

theorem Spread.le (h : Spread addr size lo blocks hi) : lo ≤ hi := by
  induction blocks generalizing lo with
  | nil => exact h
  | cons block rest ih =>
      have hrest := ih h.2
      have hstart := h.1
      omega

theorem Spread.mono_left {lo' : Nat} (h : Spread addr size lo blocks hi) (hle : lo' ≤ lo) :
    Spread addr size lo' blocks hi := by
  cases blocks with
  | nil => exact Nat.le_trans hle h
  | cons block rest => exact ⟨Nat.le_trans hle h.1, h.2⟩

theorem Spread.mono_right {hi' : Nat} (h : Spread addr size lo blocks hi) (hle : hi ≤ hi') :
    Spread addr size lo blocks hi' := by
  induction blocks generalizing lo with
  | nil => exact Nat.le_trans h hle
  | cons block rest ih => exact ⟨h.1, ih h.2⟩

theorem spread_append :
    Spread addr size lo (front ++ back) hi ↔
      ∃ cut, Spread addr size lo front cut ∧ Spread addr size cut back hi := by
  induction front generalizing lo with
  | nil =>
      constructor
      · exact fun h => ⟨lo, Nat.le_refl lo, h⟩
      · rintro ⟨cut, hle, hback⟩
        exact hback.mono_left hle
  | cons block rest ih =>
      simp only [List.cons_append, Spread, ih]
      constructor
      · rintro ⟨hstart, cut, hrest, hback⟩
        exact ⟨cut, ⟨hstart, hrest⟩, hback⟩
      · rintro ⟨cut, ⟨hstart, hrest⟩, hback⟩
        exact ⟨hstart, cut, hrest, hback⟩

/-- The blocks before the chosen one end where it starts, or earlier. -/
theorem Spread.middle {block : β}
    (h : Spread addr size lo (front ++ block :: back) hi) :
    Spread addr size lo front (addr block) ∧
      Spread addr size (addr block + size block) back hi := by
  obtain ⟨cut, hfront, hstart, hback⟩ := spread_append.mp h
  exact ⟨hfront.mono_right hstart, hback⟩

theorem Spread.bounds (h : Spread addr size lo blocks hi) {block : β}
    (hblock : block ∈ blocks) :
    lo ≤ addr block ∧ addr block + size block ≤ hi := by
  obtain ⟨front, back, rfl⟩ := List.append_of_mem hblock
  obtain ⟨hfront, hback⟩ := h.middle
  exact ⟨hfront.le, hback.le⟩

/-- Any other block lies on one side of the chosen one. -/
theorem Spread.apart {block other : β}
    (h : Spread addr size lo (front ++ block :: back) hi)
    (hother : other ∈ front ++ back) :
    addr other + size other ≤ addr block ∨
      addr block + size block ≤ addr other := by
  obtain ⟨hfront, hback⟩ := h.middle
  rw [List.mem_append] at hother
  rcases hother with hother | hother
  · exact Or.inl (hfront.bounds hother).2
  · exact Or.inr (hback.bounds hother).1

theorem Spread.eq_or_apart {block other : β} (h : Spread addr size lo blocks hi)
    (hblock : block ∈ blocks) (hother : other ∈ blocks) :
    other = block ∨ addr other + size other ≤ addr block ∨
      addr block + size block ≤ addr other := by
  obtain ⟨front, back, rfl⟩ := List.append_of_mem hblock
  have hcases : other = block ∨ other ∈ front ++ back := by
    simp only [List.mem_append, List.mem_cons] at hother ⊢
    tauto
  exact hcases.imp_right h.apart

theorem Spread.eq_of_addr_eq {block other : β} (h : Spread addr size lo blocks hi)
    (hpos : ∀ b ∈ blocks, 0 < size b) (hblock : block ∈ blocks)
    (hother : other ∈ blocks) (haddr : addr other = addr block) :
    other = block := by
  have hp := hpos block hblock
  have hp' := hpos other hother
  rcases h.eq_or_apart hblock hother with heq | hleft | hright
  · exact heq
  · omega
  · omega

theorem Spread.pairwise (h : Spread addr size lo blocks hi) :
    blocks.Pairwise fun b c => addr b + size b ≤ addr c := by
  induction blocks generalizing lo with
  | nil => exact List.Pairwise.nil
  | cons block rest ih =>
      exact List.Pairwise.cons (fun other hother => (h.2.bounds hother).1) (ih h.2)

theorem Spread.addr_nodup (h : Spread addr size lo blocks hi)
    (hpos : ∀ b ∈ blocks, 0 < size b) : (blocks.map addr).Nodup := by
  rw [List.nodup_iff_pairwise_ne, List.pairwise_map]
  refine h.pairwise.imp_of_mem fun {b c} hb _ hbc heq => ?_
  have := hpos b hb
  omega

/-- The lengths fit between the ends. -/
theorem Spread.sum_le (h : Spread addr size lo blocks hi) :
    lo + (blocks.map size).sum ≤ hi := by
  induction blocks generalizing lo with
  | nil => simpa using (show lo ≤ hi from h)
  | cons block rest ih =>
      have hrest := ih h.2
      have hstart := h.1
      simp only [List.map_cons, List.sum_cons]
      omega

theorem Spread.length_le (h : Spread addr size lo blocks hi)
    (hpos : ∀ b ∈ blocks, 0 < size b) : lo + blocks.length ≤ hi := by
  induction blocks generalizing lo with
  | nil => exact h
  | cons block rest ih =>
      have hrest := ih h.2 fun b hb => hpos b (List.mem_cons_of_mem block hb)
      have hblock := hpos block List.mem_cons_self
      have hstart := h.1
      rw [List.length_cons]
      omega

theorem Spread.concat {block : β} (h : Spread addr size lo blocks hi)
    (hblock : hi ≤ addr block) :
    Spread addr size lo (blocks ++ [block]) (addr block + size block) :=
  spread_append.mpr ⟨hi, h, hblock, Nat.le_refl _⟩

end Spread

theorem Tiles.spread (h : Tiles addr size lo blocks hi) : Spread addr size lo blocks hi := by
  induction blocks generalizing lo with
  | nil => exact Nat.le_of_eq h
  | cons block rest ih =>
      refine ⟨Nat.le_of_eq h.1.symm, ?_⟩
      rw [h.1]
      exact ih h.2

theorem tiles_append :
    Tiles addr size lo (front ++ back) hi ↔
      ∃ cut, Tiles addr size lo front cut ∧ Tiles addr size cut back hi := by
  induction front generalizing lo with
  | nil => simp [Tiles]
  | cons block rest ih =>
      simp only [List.cons_append, Tiles, ih]
      constructor
      · rintro ⟨hstart, cut, hrest, hback⟩
        exact ⟨cut, ⟨hstart, hrest⟩, hback⟩
      · rintro ⟨cut, ⟨hstart, hrest⟩, hback⟩
        exact ⟨hstart, cut, hrest, hback⟩

theorem Tiles.hi_eq (h : Tiles addr size lo blocks hi) :
    hi = lo + (blocks.map size).sum := by
  induction blocks generalizing lo with
  | nil => simpa [Tiles] using h.symm
  | cons block rest ih =>
      have hrest := ih h.2
      simp only [List.map_cons, List.sum_cons]
      omega

theorem Tiles.le (h : Tiles addr size lo blocks hi) : lo ≤ hi := h.spread.le

/-- The block between `front` and `back` starts where `front` ends. -/
theorem Tiles.middle {block : β}
    (h : Tiles addr size lo (front ++ block :: back) hi) :
    Tiles addr size lo front (addr block) ∧
      Tiles addr size (addr block + size block) back hi := by
  obtain ⟨cut, hfront, hstart, hback⟩ := tiles_append.mp h
  subst hstart
  exact ⟨hfront, hback⟩

/-- A block starts where the one before it ends. -/
theorem Tiles.next {block other : β}
    (h : Tiles addr size lo (front ++ block :: other :: back) hi) :
    addr other = addr block + size block :=
  h.middle.2.1

/-- When every length is a multiple of `k`, all starts agree modulo `k`. -/
theorem Tiles.hi_mod {k : Nat} (h : Tiles addr size lo blocks hi)
    (hmod : ∀ b ∈ blocks, size b % k = 0) : hi % k = lo % k := by
  induction blocks generalizing lo with
  | nil => rw [show lo = hi from h]
  | cons block rest ih =>
      have hrest := ih h.2 fun b hb => hmod b (List.mem_cons_of_mem block hb)
      have hblock := hmod block List.mem_cons_self
      rw [hrest, Nat.add_mod, hblock, Nat.add_zero, Nat.mod_mod]

theorem Tiles.addr_mod {k : Nat} (h : Tiles addr size lo blocks hi)
    (hmod : ∀ b ∈ blocks, size b % k = 0) {block : β} (hblock : block ∈ blocks) :
    addr block % k = lo % k := by
  obtain ⟨front, back, rfl⟩ := List.append_of_mem hblock
  exact h.middle.1.hi_mod fun b hb => hmod b (by simp [hb])

/-- The blocks say where they start and end. -/
theorem Tiles.ends_unique {lo' hi' : Nat} (h : Tiles addr size lo blocks hi)
    (hne : blocks ≠ []) (h' : Tiles addr size lo' blocks hi') :
    lo = lo' ∧ hi = hi' := by
  have hlo : lo = lo' := by
    cases blocks with
    | nil => exact absurd rfl hne
    | cons block rest => exact h.1.symm.trans h'.1
  refine ⟨hlo, ?_⟩
  rw [h.hi_eq, h'.hi_eq, hlo]

/-- A run without gaps inside a row with gaps: what is left and right of it. -/
theorem Spread.around {left right : Nat} (h : Spread addr size lo (front ++ mid ++ back) hi)
    (hmid : Tiles addr size left mid right) (hne : mid ≠ []) :
    Spread addr size lo front left ∧ Spread addr size right back hi := by
  obtain ⟨cut', hleft, hback⟩ := spread_append.mp h
  obtain ⟨cut, hfront, hrun⟩ := spread_append.mp hleft
  cases mid with
  | nil => exact absurd rfl hne
  | cons block rest =>
      have hstart : addr block = left := hmid.1
      have hend := hmid.hi_eq
      have hrun' : Spread addr size left (block :: rest) cut' :=
        ⟨Nat.le_of_eq hstart.symm, hrun.2⟩
      have hfits := hrun'.sum_le
      exact ⟨hfront.mono_right (hstart ▸ hrun.1), hback.mono_left (by omega)⟩

/-- Tilings depend on the starts and lengths only. -/
theorem Tiles.map {γ : Type*} {addr' size' : γ → Nat} (f : β → γ)
    (h : Tiles addr size lo blocks hi) (haddr : ∀ b ∈ blocks, addr' (f b) = addr b)
    (hsize : ∀ b ∈ blocks, size' (f b) = size b) :
    Tiles addr' size' lo (blocks.map f) hi := by
  induction blocks generalizing lo with
  | nil => exact h
  | cons block rest ih =>
      have hblock : block ∈ block :: rest := List.mem_cons_self
      refine ⟨(haddr block hblock).trans h.1, ?_⟩
      rw [hsize block hblock]
      exact ih h.2 (fun b hb => haddr b (List.mem_cons_of_mem block hb))
        fun b hb => hsize b (List.mem_cons_of_mem block hb)

/-- Where starts tell blocks apart, only one tiling goes from `lo` to `hi`. -/
theorem Tiles.unique {blocks' : List β} (hinj : Function.Injective addr)
    (h : Tiles addr size lo blocks hi) (h' : Tiles addr size lo blocks' hi)
    (hpos : ∀ b ∈ blocks, 0 < size b) (hpos' : ∀ b ∈ blocks', 0 < size b) :
    blocks = blocks' := by
  induction blocks generalizing lo blocks' with
  | nil =>
      have hends : lo = hi := h
      cases blocks' with
      | nil => rfl
      | cons block' rest' =>
          have hle := h'.2.le
          have hblock' := hpos' block' List.mem_cons_self
          omega
  | cons block rest ih =>
      have hle := h.2.le
      have hblock := hpos block List.mem_cons_self
      cases blocks' with
      | nil =>
          have hends : lo = hi := h'
          omega
      | cons block' rest' =>
          have heq : block = block' := hinj (h.1.trans h'.1.symm)
          subst heq
          congr 1
          exact ih h.2 h'.2 (fun b hb => hpos b (List.mem_cons_of_mem block hb))
            fun b hb => hpos' b (List.mem_cons_of_mem block hb)

theorem Tiles.concat {block : β} (h : Tiles addr size lo blocks hi)
    (hblock : addr block = hi) :
    Tiles addr size lo (blocks ++ [block]) (hi + size block) :=
  tiles_append.mpr ⟨hi, h, hblock, rfl⟩

end Tiling
