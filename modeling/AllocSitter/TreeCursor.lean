/-
Ordered rose trees, a place in such a tree as a zipper, and what it means for a
cursor with its own representation to behave as one.
-/
import Mathlib.Data.List.Basic

namespace TreeCursor

universe u v

/-- A finite tree whose nodes carry labels and ordered children. -/
inductive RoseTree (α : Type u) where
  | node (label : α) (children : List (RoseTree α))

namespace RoseTree

variable {α : Type u}

def children : RoseTree α → List (RoseTree α)
  | .node _ children => children

mutual

/-- The number of nodes. -/
def size : RoseTree α → Nat
  | .node _ children => 1 + sizes children

def sizes : List (RoseTree α) → Nat
  | [] => 0
  | first :: rest => size first + sizes rest

end

mutual

/-- The number of nodes with children. -/
def inner : RoseTree α → Nat
  | .node _ children => (if children.isEmpty then 0 else 1) + inners children

def inners : List (RoseTree α) → Nat
  | [] => 0
  | first :: rest => inner first + inners rest

end

/-- What holds of a node when it holds of its children holds of every tree. -/
theorem induct {motive : RoseTree α → Prop}
    (node : ∀ label children, (∀ child ∈ children, motive child) →
      motive (.node label children)) (t : RoseTree α) : motive t :=
  match t with
  | .node label children => node label children fun child _ => induct node child

end RoseTree

/-- One step of the way from the root: the label passed, and the children on both
sides, those on the left from the nearest on. -/
structure Frame (α : Type u) where
  label : α
  left : List (RoseTree α)
  right : List (RoseTree α)

/-- A place in a tree: the subtree there and the way back to the root. -/
structure Loc (α : Type u) where
  focus : RoseTree α
  path : List (Frame α)

namespace Loc

variable {α : Type u}

def firstChild : Loc α → Option (Loc α)
  | ⟨.node _ [], _⟩ => none
  | ⟨.node label (first :: rest), path⟩ => some ⟨first, ⟨label, [], rest⟩ :: path⟩

def nextSibling : Loc α → Option (Loc α)
  | ⟨focus, ⟨label, left, next :: right⟩ :: path⟩ =>
      some ⟨next, ⟨label, focus :: left, right⟩ :: path⟩
  | _ => none

def parent : Loc α → Option (Loc α)
  | ⟨_, []⟩ => none
  | ⟨focus, ⟨label, left, right⟩ :: path⟩ =>
      some ⟨.node label (left.reverse ++ focus :: right), path⟩

end Loc

/-- The moves of a cursor: each returns the cursor after it and whether it has
moved. -/
structure Cursor (γ : Type v) where
  gotoFirstChild : γ → γ × Bool
  gotoNextSibling : γ → γ × Bool
  gotoParent : γ → γ × Bool

/-- A move goes to its target and says so, or stays and says that. -/
def Follows {α : Type u} {γ : Type v} (loc : γ → Loc α) (target : Option (Loc α)) (cur : γ)
    (result : γ × Bool) : Prop :=
  match target with
  | some place => loc result.1 = place ∧ result.2 = true
  | none => loc result.1 = loc cur ∧ result.2 = false

/-- The cursor behaves as a zipper, `loc` being the place it stands at. -/
structure Cursor.IsZipper {α : Type u} {γ : Type v} (api : Cursor γ) (loc : γ → Loc α) :
    Prop where
  firstChild : ∀ cur, Follows loc (loc cur).firstChild cur (api.gotoFirstChild cur)
  nextSibling : ∀ cur, Follows loc (loc cur).nextSibling cur (api.gotoNextSibling cur)
  parent : ∀ cur, Follows loc (loc cur).parent cur (api.gotoParent cur)

/-- The zipper itself as a cursor. -/
def zipper (α : Type u) : Cursor (Loc α) where
  gotoFirstChild place := (place.firstChild.getD place, place.firstChild.isSome)
  gotoNextSibling place := (place.nextSibling.getD place, place.nextSibling.isSome)
  gotoParent place := (place.parent.getD place, place.parent.isSome)

variable {α : Type u} {γ : Type v}

theorem follows_iff {loc : γ → Loc α} {target : Option (Loc α)} {cur : γ}
    {result : γ × Bool} :
    Follows loc target cur result ↔
      loc result.1 = target.getD (loc cur) ∧ result.2 = target.isSome := by
  cases target with
  | none => rfl
  | some place => rfl

theorem zipper_isZipper : (zipper α).IsZipper id where
  firstChild _ := follows_iff.mpr ⟨rfl, rfl⟩
  nextSibling _ := follows_iff.mpr ⟨rfl, rfl⟩
  parent _ := follows_iff.mpr ⟨rfl, rfl⟩

end TreeCursor
