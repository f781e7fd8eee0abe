/-
Singly linked chains over an arbitrary successor function, the loop that walks
such a chain through a pointer to the current link, and what rewriting one link
does to the chain.  Nothing here says where a link is kept.
-/
import Mathlib.Data.List.Basic

namespace LinkedChain

universe u

variable {α : Type u}

/-- Following `next` from `start` visits `nodes` in order and stands at `stop`. -/
def Segment (next : α → α) : α → List α → α → Prop
  | start, [], stop => start = stop
  | start, node :: rest, stop => start = node ∧ Segment next (next node) rest stop

/-- A chain is a segment that ends at `null` and does not meet it before. -/
def Linked (next : α → α) (null start : α) (nodes : List α) : Prop :=
  Segment next start nodes null ∧ ∀ node ∈ nodes, node ≠ null

section Segments

variable {next next' : α → α} {null start stop : α} {nodes : List α}

theorem segment_append {front back : List α} :
    Segment next start (front ++ back) stop ↔
      ∃ mid, Segment next start front mid ∧ Segment next mid back stop := by
  induction front generalizing start with
  | nil => simp [Segment]
  | cons node rest ih =>
      simp only [List.cons_append, Segment, ih]
      constructor
      · rintro ⟨hstart, mid, hfront, hback⟩
        exact ⟨mid, ⟨hstart, hfront⟩, hback⟩
      · rintro ⟨mid, ⟨hstart, hfront⟩, hback⟩
        exact ⟨hstart, mid, hfront, hback⟩

theorem Segment.congr (h : Segment next start nodes stop)
    (hsame : ∀ node ∈ nodes, next' node = next node) :
    Segment next' start nodes stop := by
  induction nodes generalizing start with
  | nil => exact h
  | cons node rest ih =>
      refine ⟨h.1, ?_⟩
      rw [hsame node List.mem_cons_self]
      exact ih h.2 fun other hother => hsame other (List.mem_cons_of_mem node hother)

theorem linked_nil : Linked next null start [] ↔ start = null := by
  simp [Linked, Segment]

theorem linked_cons {node : α} {rest : List α} :
    Linked next null start (node :: rest) ↔
      start = node ∧ node ≠ null ∧ Linked next null (next node) rest := by
  simp only [Linked, Segment, List.forall_mem_cons]
  tauto

theorem Linked.congr (h : Linked next null start nodes)
    (hsame : ∀ node ∈ nodes, next' node = next node) :
    Linked next' null start nodes :=
  ⟨h.1.congr hsame, h.2⟩

/-- The nodes are determined by the successor function. -/
theorem Linked.unique {others : List α} (h : Linked next null start nodes)
    (h' : Linked next null start others) : nodes = others := by
  induction nodes generalizing start others with
  | nil =>
      rw [linked_nil] at h
      cases others with
      | nil => rfl
      | cons node rest =>
          rw [linked_cons] at h'
          exact absurd (h'.1.symm.trans h) h'.2.1
  | cons node rest ih =>
      rw [linked_cons] at h
      cases others with
      | nil =>
          rw [linked_nil] at h'
          exact absurd (h.1.symm.trans h') h.2.1
      | cons other tail =>
          rw [linked_cons] at h'
          have hnode : node = other := h.1.symm.trans h'.1
          subst hnode
          rw [ih h.2.2 h'.2.2]

/-- A chain that ends visits no node twice: the walk after the second visit
would have to repeat the longer walk after the first one. -/
theorem Linked.nodup (h : Linked next null start nodes) : nodes.Nodup := by
  induction nodes generalizing start with
  | nil => exact List.nodup_nil
  | cons node rest ih =>
      rw [linked_cons] at h
      refine List.nodup_cons.mpr ⟨?_, ih h.2.2⟩
      intro hagain
      obtain ⟨front, back, hsplit⟩ := List.append_of_mem hagain
      have hback : Linked next null (next node) back := by
        have htail := h.2.2
        rw [hsplit] at htail
        obtain ⟨_, _, hmid⟩ := segment_append.mp htail.1
        refine ⟨hmid.2, fun other hother => htail.2 other ?_⟩
        simp [hother]
      have hsame := h.2.2.unique hback
      rw [hsplit] at hsame
      have hlength := congrArg List.length hsame
      simp only [List.length_append, List.length_cons] at hlength
      omega

/-- A node stands in one place of its chain. -/
theorem Linked.not_mem_front {front back : List α} {node : α}
    (h : Linked next null start (front ++ node :: back)) : node ∉ front := by
  intro hmem
  have hapart := (List.nodup_append.mp h.nodup).2.2
  exact hapart node hmem node List.mem_cons_self rfl

theorem Linked.erase_eq [DecidableEq α] {front back : List α} {node : α}
    (h : Linked next null start (front ++ node :: back)) :
    (front ++ node :: back).erase node = front ++ back := by
  rw [List.erase_append_right _ h.not_mem_front, List.erase_cons_head]

theorem Linked.push {node : α} (h : Linked next null start nodes)
    (hnode : node ≠ null) (hlink : next' node = start)
    (hsame : ∀ other ∈ nodes, next' other = next other) :
    Linked next' null node (node :: nodes) := by
  rw [linked_cons]
  refine ⟨rfl, hnode, ?_⟩
  rw [hlink]
  exact h.congr hsame

end Segments

/-- Where the pointer to the current node is kept: in the list head, or in the
link of the node before. -/
inductive Link (α : Type u) where
  | head
  | after (node : α)
deriving Repr, DecidableEq

namespace Link

def target (next : α → α) (first : α) : Link α → α
  | .head => first
  | .after node => next node

/-- The link reached after stepping over `nodes`. -/
def advance : Link α → List α → Link α
  | link, [] => link
  | _, node :: rest => (Link.after node).advance rest

theorem advance_concat (link : Link α) (front : List α) (node : α) :
    link.advance (front ++ [node]) = .after node := by
  induction front generalizing link with
  | nil => rfl
  | cons first rest ih => exact ih (.after first)

theorem target_advance {next : α → α} {first stop : α} {link : Link α}
    {nodes : List α} (h : Segment next (link.target next first) nodes stop) :
    (link.advance nodes).target next first = stop := by
  induction nodes generalizing link with
  | nil => exact h
  | cons node rest ih =>
      have hrest : Segment next ((Link.after node).target next first) rest stop := h.2
      exact ih hrest

end Link

/-- Rewriting the link that points at `node` to the successor of `node` takes
`node` out of the chain and keeps the order of the others. -/
theorem Linked.unlink {next next' : α → α} {null first first' node : α} {front back : List α}
    (h : Linked next null first (front ++ node :: back))
    (hsame : ∀ other ∈ front ++ back,
      Link.advance .head front ≠ .after other → next' other = next other)
    (hlink : (Link.advance .head front).target next' first' = next node)
    (hfirst : front ≠ [] → first' = first) :
    Linked next' null first' (front ++ back) := by
  have hnodup := h.nodup
  obtain ⟨hseg, hnull⟩ := h
  refine ⟨?_, fun other hother => hnull other (by simp at hother ⊢; tauto)⟩
  obtain ⟨mid, hfront, hback⟩ := segment_append.mp hseg
  rcases List.eq_nil_or_concat' front with rfl | ⟨init, last, rfl⟩
  · simp only [Link.advance, Link.target] at hlink
    rw [List.nil_append, hlink]
    refine hback.2.congr fun other hother => hsame other (by simpa using hother) ?_
    simp [Link.advance]
  · -- Only the link of the last node before `node` changes.
    rw [Link.advance_concat] at hsame hlink
    rw [hfirst (by simp)]
    obtain ⟨prev, hinit, hlast⟩ := segment_append.mp hfront
    have hne : ∀ other ∈ init ++ back, other ≠ last := by
      intro other hother heq
      subst heq
      simp only [List.append_assoc, List.singleton_append] at hnodup
      obtain ⟨_, htail, hapart⟩ := List.nodup_append.mp hnodup
      rw [List.mem_append] at hother
      rcases hother with hother | hother
      · exact hapart other hother other List.mem_cons_self rfl
      · exact (List.nodup_cons.mp htail).1 (List.mem_cons_of_mem node hother)
    rw [List.append_assoc, segment_append]
    refine ⟨prev, hinit.congr fun other hother => ?_, hlast.1, ?_⟩
    · refine hsame other (by simp [hother]) fun heq => ?_
      exact hne other (by simp [hother]) (Link.after.inj heq).symm
    · change next' last = next node at hlink
      change Segment next' (next' last) back null
      rw [hlink]
      refine hback.2.congr fun other hother => ?_
      refine hsame other (by simp [hother]) fun heq => ?_
      exact hne other (by simp [hother]) (Link.after.inj heq).symm

/-- `while (*link) { steps++; if (stop(*link)) return link; link = &next(*link); }`.
Running out of fuel is the loop that has not ended. -/
def walk [DecidableEq α] (next : α → α) (null first : α) (stop : α → Bool) :
    Nat → Link α → Nat → Option (Nat × Option (Link α))
  | 0, _, _ => none
  | fuel + 1, link, steps =>
      let node := link.target next first
      if node = null then some (steps, none)
      else if stop node then some (steps + 1, some link)
      else walk next null first stop fuel (.after node) (steps + 1)

section Walks

variable [DecidableEq α] {next : α → α} {null first : α} {stop : α → Bool}

theorem walk_of_none_stop {nodes : List α} {fuel steps : Nat} {link : Link α}
    (h : Linked next null (link.target next first) nodes)
    (hfuel : nodes.length < fuel) (hstop : ∀ node ∈ nodes, stop node = false) :
    walk next null first stop fuel link steps =
      some (steps + nodes.length, none) := by
  induction nodes generalizing fuel steps link with
  | nil =>
      obtain ⟨fuel, rfl⟩ : ∃ n, fuel = n + 1 := ⟨fuel - 1, by simp at hfuel; omega⟩
      simp [walk, linked_nil.mp h]
  | cons node rest ih =>
      obtain ⟨fuel, rfl⟩ : ∃ n, fuel = n + 1 := ⟨fuel - 1, by simp at hfuel; omega⟩
      rw [linked_cons] at h
      have hrest : walk next null first stop fuel (.after node) (steps + 1) =
          some (steps + 1 + rest.length, none) :=
        ih h.2.2 (by simpa using hfuel)
          fun other hother => hstop other (List.mem_cons_of_mem node hother)
      simp only [walk, h.1, h.2.1, hstop node List.mem_cons_self, ↓reduceIte, hrest,
        List.length_cons, Bool.false_eq_true]
      congr 2
      omega

theorem walk_of_first_stop {front back : List α} {node : α} {fuel steps : Nat}
    {link : Link α}
    (h : Linked next null (link.target next first) (front ++ node :: back))
    (hfuel : front.length < fuel) (hfront : ∀ other ∈ front, stop other = false)
    (hnode : stop node = true) :
    walk next null first stop fuel link steps =
      some (steps + front.length + 1, some (link.advance front)) := by
  induction front generalizing fuel steps link with
  | nil =>
      obtain ⟨fuel, rfl⟩ : ∃ n, fuel = n + 1 := ⟨fuel - 1, by simp at hfuel; omega⟩
      rw [List.nil_append, linked_cons] at h
      simp [walk, h.1, h.2.1, hnode, Link.advance]
  | cons other rest ih =>
      obtain ⟨fuel, rfl⟩ : ∃ n, fuel = n + 1 := ⟨fuel - 1, by simp at hfuel; omega⟩
      rw [List.cons_append, linked_cons] at h
      have hrest : walk next null first stop fuel (.after other) (steps + 1) =
          some (steps + 1 + rest.length + 1, some ((Link.after other).advance rest)) :=
        ih h.2.2 (by simpa using hfuel)
          fun node hmem => hfront node (List.mem_cons_of_mem other hmem)
      simp only [walk, h.1, h.2.1, hfront other List.mem_cons_self, ↓reduceIte, hrest,
        List.length_cons, Bool.false_eq_true, Link.advance]
      congr 2
      omega

/-- Over a chain the walk ends, whatever it is looking for. -/
theorem walk_returns {nodes : List α} {fuel steps : Nat} {link : Link α}
    (h : Linked next null (link.target next first) nodes)
    (hfuel : nodes.length < fuel) :
    ∃ result, walk next null first stop fuel link steps = some result := by
  induction nodes generalizing fuel steps link with
  | nil => exact ⟨_, walk_of_none_stop h hfuel (by simp)⟩
  | cons node rest ih =>
      obtain ⟨fuel, rfl⟩ : ∃ n, fuel = n + 1 := ⟨fuel - 1, by simp at hfuel; omega⟩
      rw [linked_cons] at h
      obtain ⟨result, hrest⟩ : ∃ result,
          walk next null first stop fuel (.after node) (steps + 1) = some result :=
        ih h.2.2 (by simpa using hfuel)
      by_cases hstop : stop node = true
      · refine ⟨(steps + 1, some link), ?_⟩
        simp only [walk, h.1, h.2.1, hstop, ↓reduceIte]
      · refine ⟨result, ?_⟩
        simp only [walk, h.1, h.2.1, hstop, ↓reduceIte, Bool.false_eq_true, hrest]

/-- Over a chain the walk takes no more steps than there are nodes. -/
theorem walk_steps_le {nodes : List α} {fuel steps n : Nat} {link : Link α}
    {found : Option (Link α)} (h : Linked next null (link.target next first) nodes)
    (hwalk : walk next null first stop fuel link steps = some (n, found)) :
    n ≤ steps + nodes.length := by
  induction nodes generalizing fuel steps link with
  | nil =>
      cases fuel with
      | zero => exact absurd hwalk (by simp [walk])
      | succ fuel =>
          simp only [walk, linked_nil.mp h, ↓reduceIte, Option.some.injEq, Prod.mk.injEq] at hwalk
          rw [← hwalk.1]
          exact Nat.le_add_right steps _
  | cons node rest ih =>
      rw [linked_cons] at h
      cases fuel with
      | zero => exact absurd hwalk (by simp [walk])
      | succ fuel =>
          by_cases hstop : stop node = true
          · simp only [walk, h.1, h.2.1, hstop, ↓reduceIte, Option.some.injEq,
              Prod.mk.injEq] at hwalk
            rw [← hwalk.1, List.length_cons]
            omega
          · simp only [walk, h.1, h.2.1, hstop, ↓reduceIte, Bool.false_eq_true] at hwalk
            have hlinked : Linked next null ((Link.after node).target next first) rest := h.2.2
            have hrest := ih hlinked hwalk
            rw [List.length_cons]
            omega

end Walks

end LinkedChain
