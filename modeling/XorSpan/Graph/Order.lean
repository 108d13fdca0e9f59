/-
The nodes of a graph in an order in which every node comes before its
children: the nodes in the reverse of the order in which a depth-first
search from the root leaves them.

The search keeps the path from the root to where it stands, each node on
it with the children not yet looked at. It looks at one child, or leaves
one node, per step. A child that is on the path itself closes a cycle,
and then there is no such order.
-/
import XorSpan.Graph.Basic
import XorSpan.Walk

namespace XorSpan

/-- How far the search has come with a node. -/
inductive Mark where
  | unseen
  | onPath
  | finished
deriving DecidableEq, Repr, Inhabited

structure Search where
  marks : Array Mark
  /-- The path, its end first; each node with the children still to be
  looked at. -/
  path : List (Nat × List Nat)
  /-- The nodes left, the latest first. -/
  listed : List Nat

namespace Search

/-- At the root, nothing else seen. -/
def initial (g : Graph) : Search where
  marks := (Array.replicate g.size .unseen).setIfInBounds 0 .onPath
  path := [(0, (g.childrenAt 0).toList)]
  listed := []

def markAt (s : Search) (i : Nat) : Mark := (s.marks[i]?).getD .finished

/-- Looks at the next child of the node at the end of the path, or
leaves the node if there is none. -/
def step (g : Graph) (s : Search) : Stride Search :=
  match s.path with
  | [] => .rest s
  | (i, []) :: path =>
      .move ⟨s.marks.setIfInBounds i .finished, path, i :: s.listed⟩ []
  | (i, child :: children) :: path =>
      match s.markAt child with
      | .onPath => .fail (.defect .order (.cycle (g.valueAt child)))
      | .finished => .move { s with path := (i, children) :: path } []
      | .unseen => .move { s with
          marks := s.marks.setIfInBounds child .onPath
          path :=
            (child, (g.childrenAt child).toList) :: (i, children) :: path } []

def unseen (marks : Array Mark) : Nat := marks.countP (· == .unseen)

/-- Steps that the path still asks for, new nodes not counted. -/
def work : List (Nat × List Nat) → Nat
  | [] => 0
  | (_, children) :: path => children.length + 1 + work path

theorem unseen_setIfInBounds_le (marks : Array Mark) (i : Nat) {m : Mark}
    (h : m ≠ .unseen) :
    unseen (marks.setIfInBounds i m) ≤ unseen marks := by
  unfold unseen
  rw [Array.setIfInBounds]
  split
  · next hi =>
    rw [Array.countP_set]
    simp [h]
  · exact Nat.le_refl _

theorem unseen_setIfInBounds_lt {marks : Array Mark} {i : Nat} {m : Mark}
    (h : m ≠ .unseen) (hi : i < marks.size) (hu : marks[i] = .unseen) :
    unseen (marks.setIfInBounds i m) < unseen marks := by
  unfold unseen
  have hpos : 0 < marks.countP (· == .unseen) :=
    Array.countP_pos_iff.2 ⟨marks[i], Array.getElem_mem hi, by simp [hu]⟩
  rw [Array.setIfInBounds, dif_pos hi, Array.countP_set, hu,
    beq_eq_false_iff_ne.2 h]
  show marks.countP (· == .unseen) - 1 + 0 < marks.countP (· == .unseen)
  omega

theorem rank_step_lt {g : Graph} {s t : Search} {lines : List String}
    (h : s.step g = .move t lines) :
    RankLess (unseen t.marks, work t.path) (unseen s.marks, work s.path) := by
  unfold step at h
  split at h
  · cases h
  · next i path hp =>
    cases h
    have hle := unseen_setIfInBounds_le s.marks i (m := .finished) (by decide)
    rcases Nat.lt_or_eq_of_le hle with hlt | heq
    · exact Prod.Lex.left _ _ hlt
    · simp only [heq, hp, work]
      exact Prod.Lex.right _ (by simp)
  · next i child children path hp =>
    split at h
    · cases h
    · cases h
      simp only [hp, work]
      exact Prod.Lex.right _ (by simp)
    · next hm =>
      cases h
      refine Prod.Lex.left _ _ ?_
      unfold markAt at hm
      rcases Nat.lt_or_ge child s.marks.size with hi | hi
      · refine unseen_setIfInBounds_lt (by decide) hi ?_
        simpa [hi] using hm
      · simp [hi] at hm

def walk (g : Graph) : Walk Search where
  stage := .order
  step := step g
  rank s := (unseen s.marks, work s.path)
  descends := rank_step_lt

end Search

/-- The nodes below the root, and the root, parents first. -/
def Graph.order (g : Graph) : Job (List Nat) := do
  let s ← (Search.walk g).run (Search.initial g)
  return s.listed

end XorSpan
