/-
`count_nodes_and_errors` of `bench/driver.c`: the walk over a syntax tree through
the cursor of the parser library, which is a parameter.
-/
import AllocSitter.TreeCursor

namespace AllocSitter

namespace Driver

open TreeCursor

universe u v

/-- What the parser library provides: the root's error flag, a cursor at the root,
and the moves. -/
structure TreeSitter (α : Type u) (γ : Type v) where
  nodeHasError : RoseTree α → Bool
  cursorNew : RoseTree α → γ
  moves : Cursor γ

section Count

variable {α : Type u} {γ : Type v}

/-- The moves of one iteration: where the next one starts and whether it is
descending, or `none` for `break`. -/
def iteration (moves : Cursor γ) (cur : γ) (descending : Bool) : Option (γ × Bool) :=
  let child := if descending then moves.gotoFirstChild cur else (cur, false)
  if child.2 then some (child.1, descending)
  else
    let sibling := moves.gotoNextSibling child.1
    if sibling.2 then some (sibling.1, true)
    else
      let parent := moves.gotoParent sibling.1
      if parent.2 then some (parent.1, false) else none

/-- The loop: `nodes` goes up by one in each iteration.  Running out of fuel is the
loop that has not ended. -/
def countNodes (moves : Cursor γ) : Nat → γ → Bool → Nat → Option Nat
  | 0, _, _, _ => none
  | fuel + 1, cur, descending, nodes =>
      match iteration moves cur descending with
      | some (cur, descending) => countNodes moves fuel cur descending (nodes + 1)
      | none => some (nodes + 1)

/-- The result, and what is stored to `*has_error`. -/
def countNodesAndErrors (ts : TreeSitter α γ) (fuel : Nat) (tree : RoseTree α) :
    Option (Nat × Bool) :=
  (countNodes ts.moves fuel (ts.cursorNew tree) true 0).map fun nodes =>
    (nodes, ts.nodeHasError tree)

/-- More fuel does not change a count. -/
theorem countNodes_mono {moves : Cursor γ} {fuel nodes result : Nat} {cur : γ}
    {descending : Bool} (h : countNodes moves fuel cur descending nodes = some result)
    (extra : Nat) :
    countNodes moves (fuel + extra) cur descending nodes = some result := by
  induction fuel generalizing cur descending nodes with
  | zero => simp [countNodes] at h
  | succ fuel ih =>
      rw [Nat.add_right_comm]
      unfold countNodes at h ⊢
      cases hnext : iteration moves cur descending with
      | none =>
          rw [hnext] at h
          exact h
      | some next =>
          rw [hnext] at h
          exact ih h

theorem iteration_zipper {moves : Cursor γ} {loc : γ → Loc α} (h : moves.IsZipper loc)
    (cur : γ) (descending : Bool) :
    iteration (zipper α) (loc cur) descending =
      (iteration moves cur descending).map fun next => (loc next.1, next.2) := by
  -- The first move, or none on the way up.
  obtain ⟨child, hmove, hplace⟩ : ∃ child : γ × Bool,
      (if descending then moves.gotoFirstChild cur else (cur, false)) = child ∧
      (if descending then (zipper α).gotoFirstChild (loc cur) else (loc cur, false)) =
        (loc child.1, child.2) := by
    refine ⟨_, rfl, ?_⟩
    cases descending with
    | false => rfl
    | true =>
        obtain ⟨hloc, hmoved⟩ := follows_iff.mp (h.firstChild cur)
        exact (Prod.ext hloc hmoved).symm
  obtain ⟨hsibling, hmoved⟩ := follows_iff.mp (h.nextSibling child.1)
  obtain ⟨hparent, hmoved'⟩ := follows_iff.mp (h.parent (moves.gotoNextSibling child.1).1)
  have hnext : (zipper α).gotoNextSibling (loc child.1) =
      (loc (moves.gotoNextSibling child.1).1, (moves.gotoNextSibling child.1).2) :=
    (Prod.ext hsibling hmoved).symm
  have hup : (zipper α).gotoParent (loc (moves.gotoNextSibling child.1).1) =
      (loc (moves.gotoParent (moves.gotoNextSibling child.1).1).1,
        (moves.gotoParent (moves.gotoNextSibling child.1).1).2) :=
    (Prod.ext hparent hmoved').symm
  simp only [iteration, hmove, hplace, hnext, hup]
  split
  · rfl
  · split
    · rfl
    · split <;> rfl

/-- The count only depends on the places the cursor stands at. -/
theorem countNodes_zipper {moves : Cursor γ} {loc : γ → Loc α} (h : moves.IsZipper loc)
    (fuel : Nat) (cur : γ) (descending : Bool) (nodes : Nat) :
    countNodes moves fuel cur descending nodes =
      countNodes (zipper α) fuel (loc cur) descending nodes := by
  induction fuel generalizing cur descending nodes with
  | zero => rfl
  | succ fuel ih =>
      unfold countNodes
      rw [iteration_zipper h]
      cases iteration moves cur descending with
      | none => rfl
      | some next => exact ih next.1 next.2 (nodes + 1)

/-- How often the walk over a tree counts: at every node, and once more at each
node that it comes back to from below. -/
def visits (t : RoseTree α) : Nat := t.size + t.inner

def visitsAll (children : List (RoseTree α)) : Nat :=
  RoseTree.sizes children + RoseTree.inners children

/-- The end of an iteration in which no child is entered. -/
def leave (fuel : Nat) (place : Loc α) (nodes : Nat) : Option Nat :=
  match place.nextSibling with
  | some next => countNodes (zipper α) fuel next true nodes
  | none =>
      match place.parent with
      | some up => countNodes (zipper α) fuel up false nodes
      | none => some nodes

theorem countNodes_ascending (fuel : Nat) (place : Loc α) (nodes : Nat) :
    countNodes (zipper α) (fuel + 1) place false nodes = leave fuel place (nodes + 1) := by
  cases hnext : place.nextSibling <;> cases hup : place.parent <;>
    simp [countNodes, iteration, leave, zipper, hnext, hup]

theorem countNodes_leaf (fuel : Nat) {place : Loc α} (hleaf : place.firstChild = none)
    (nodes : Nat) :
    countNodes (zipper α) (fuel + 1) place true nodes = leave fuel place (nodes + 1) := by
  cases hnext : place.nextSibling <;> cases hup : place.parent <;>
    simp [countNodes, iteration, leave, zipper, hleaf, hnext, hup]

theorem countNodes_enter (fuel : Nat) {place child : Loc α}
    (hchild : place.firstChild = some child) (nodes : Nat) :
    countNodes (zipper α) (fuel + 1) place true nodes =
      countNodes (zipper α) fuel child true (nodes + 1) := by
  simp [countNodes, iteration, zipper, hchild]

/-- The walk over a tree, up to where it leaves it. -/
def WalksOver (t : RoseTree α) : Prop :=
  ∀ fuel path nodes, countNodes (zipper α) (fuel + visits t) ⟨t, path⟩ true nodes =
    leave fuel ⟨t, path⟩ (nodes + visits t)

/-- The walk over the children from `first` on ends at their parent, on the way up. -/
theorem countNodes_children {label : α} {path : List (Frame α)} (fuel : Nat)
    {first : RoseTree α} (left : List (RoseTree α)) {rest : List (RoseTree α)} (nodes : Nat)
    (hover : ∀ t ∈ first :: rest, WalksOver t) :
    countNodes (zipper α) (fuel + visitsAll (first :: rest))
        ⟨first, ⟨label, left, rest⟩ :: path⟩ true nodes =
      countNodes (zipper α) fuel ⟨.node label (left.reverse ++ first :: rest), path⟩ false
        (nodes + visitsAll (first :: rest)) := by
  have hsum : ∀ rest, visitsAll (first :: rest) = visitsAll rest + visits first := by
    intro rest
    simp only [visitsAll, visits, RoseTree.sizes, RoseTree.inners]
    omega
  induction rest generalizing first left nodes with
  | nil =>
      rw [hsum, ← Nat.add_assoc, hover first (by simp)]
      simp [leave, Loc.nextSibling, Loc.parent, visitsAll, RoseTree.sizes, RoseTree.inners]
  | cons next rest ih =>
      rw [hsum, ← Nat.add_assoc, hover first (by simp)]
      have hsibling : (⟨first, ⟨label, left, next :: rest⟩ :: path⟩ : Loc α).nextSibling =
          some ⟨next, ⟨label, first :: left, rest⟩ :: path⟩ := rfl
      rw [leave, hsibling]
      dsimp only
      rw [ih (first :: left) _ (fun t ht => hover t (List.mem_cons_of_mem first ht))
        (fun rest => by simp only [visitsAll, visits, RoseTree.sizes, RoseTree.inners]; omega)]
      simp only [List.reverse_cons, List.append_assoc, List.singleton_append]
      congr 1
      omega

/-- The walk over a tree counts each visit. -/
theorem walksOver (t : RoseTree α) : WalksOver t := by
  induction t using RoseTree.induct with
  | node label children ih =>
      intro fuel path nodes
      cases children with
      | nil => exact countNodes_leaf fuel rfl nodes
      | cons first rest =>
          have hvisits : visits (.node label (first :: rest)) =
              1 + visitsAll (first :: rest) + 1 := by
            simp only [visits, visitsAll, RoseTree.size, RoseTree.inner, List.isEmpty_cons]
            simp only [Bool.false_eq_true, ↓reduceIte]
            omega
          rw [hvisits, ← Nat.add_assoc, countNodes_enter _ rfl, ← Nat.add_assoc,
            countNodes_children (fuel + 1) [] _ ih]
          exact (countNodes_ascending _ _ _).trans (by congr 1; omega)

theorem countNodes_root (t : RoseTree α) :
    countNodes (zipper α) (visits t) ⟨t, []⟩ true 0 = some (visits t) := by
  have hover := walksOver t 0 [] 0
  simpa [leave, Loc.nextSibling, Loc.parent] using hover

/-- Two counts of one tree agree. -/
theorem countNodesAndErrors_unique {ts : TreeSitter α γ} {t : RoseTree α} {fuel fuel' : Nat}
    {result result' : Nat × Bool} (h : countNodesAndErrors ts fuel t = some result)
    (h' : countNodesAndErrors ts fuel' t = some result') : result = result' := by
  obtain ⟨n, hn, rfl⟩ := Option.map_eq_some_iff.mp h
  obtain ⟨n', hn', rfl⟩ := Option.map_eq_some_iff.mp h'
  have hmore := countNodes_mono hn fuel'
  have hmore' := countNodes_mono hn' fuel
  rw [Nat.add_comm, hmore] at hmore'
  rw [Option.some.inj hmore']

end Count

/-- The loop ends and returns the number of visits, which is the number of nodes
only where the root has no child: a node with children is counted again on the way
up. -/
theorem node_count {α : Type u} {γ : Type v} (ts : TreeSitter α γ) {loc : γ → Loc α}
    (hzipper : ts.moves.IsZipper loc) (hnew : ∀ t, loc (ts.cursorNew t) = ⟨t, []⟩)
    (t : RoseTree α) :
    (∀ fuel, t.size + t.inner ≤ fuel → countNodesAndErrors ts fuel t =
      some (t.size + t.inner, ts.nodeHasError t)) ∧
    ((∃ fuel, countNodesAndErrors ts fuel t = some (t.size, ts.nodeHasError t)) ↔
      t.children = []) := by
  have hcount : ∀ fuel, t.size + t.inner ≤ fuel → countNodesAndErrors ts fuel t =
      some (t.size + t.inner, ts.nodeHasError t) := by
    intro fuel hfuel
    obtain ⟨extra, rfl⟩ := Nat.exists_eq_add_of_le hfuel
    have hroot := countNodes_mono (countNodes_root t) extra
    rw [countNodesAndErrors, countNodes_zipper hzipper, hnew]
    unfold visits at hroot
    rw [hroot, Option.map_some]
  refine ⟨hcount, ?_⟩
  have hleaf : t.inner = 0 ↔ t.children = [] := by
    cases t with
    | node label children =>
        cases children <;> simp [RoseTree.inner, RoseTree.inners, RoseTree.children]
  rw [← hleaf]
  constructor
  · rintro ⟨fuel, hresult⟩
    have heq := countNodesAndErrors_unique hresult (hcount _ (Nat.le_refl _))
    have hsizes := congrArg Prod.fst heq
    dsimp only at hsizes
    omega
  · intro hzero
    refine ⟨t.size + t.inner, ?_⟩
    rw [hcount _ (Nat.le_refl _), hzero, Nat.add_zero]

/-- The library with the zipper as its cursor, and no errors. -/
def zipperSitter : TreeSitter Unit (Loc Unit) where
  nodeHasError _ := false
  cursorNew t := ⟨t, []⟩
  moves := zipper Unit

/-- A tree of one node. -/
theorem node_count_leaf :
    ∃ fuel, countNodesAndErrors zipperSitter fuel (.node () []) = some (1, false) :=
  (node_count zipperSitter zipper_isZipper (fun _ => rfl) (.node () [])).2.mpr rfl

/-- A root with one child: three iterations for two nodes. -/
theorem node_count_fails :
    zipperSitter.moves.IsZipper id ∧ (RoseTree.node () [.node () []]).size = 2 ∧
      countNodesAndErrors zipperSitter 3 (.node () [.node () []]) = some (3, false) ∧
      ∀ fuel, countNodesAndErrors zipperSitter fuel (.node () [.node () []]) ≠
        some (2, false) := by
  have hthree : countNodesAndErrors zipperSitter 3 (.node () [.node () []]) =
      some (3, false) := by decide
  refine ⟨zipper_isZipper, by decide, hthree, fun fuel htwo => ?_⟩
  have heq := countNodesAndErrors_unique hthree htwo
  simp at heq

end Driver

end AllocSitter
