/-
Ways down a graph. A way is told by its turns: which child to go to, by
its place among the children, so that two references to one child make
two ways.

The ways from a node are those through its children, one reference after
the other, and the empty one (`ncard_ways`). In a list in which every
node stands before its children (`ParentsFirst`) that is a recursion from
the back: there are finitely many ways from each node, and none leads
back to where it began.
-/
import Mathlib.Data.Set.Card
import Mathlib.Logic.Relation
import Mathlib.Order.CompletePartialOrder
import XorSpan.Graph.Basic

namespace XorSpan.Graph

variable {g : Graph} {i j c : Nat} {children order rest : List Nat}

/-- `c` is a child of `i`. -/
def Child (g : Graph) (i c : Nat) : Prop := c ∈ g.childrenAt i

/-- Some node is below itself. -/
def Cyclic (g : Graph) : Prop := ∃ i, Relation.TransGen g.Child i i

/-- Where the turns lead from a node, if there is such a way. -/
def descend (g : Graph) : Nat → List Nat → Option Nat
  | i, [] => some i
  | i, turn :: turns => (g.childrenAt i)[turn]?.bind (g.descend · turns)

/-- The ways from one node down to another. -/
def ways (g : Graph) (i j : Nat) : Set (List Nat) :=
  {turns | g.descend i turns = some j}

-- ============================================================== counting

/-- The ways that begin with a turn to one of these children. -/
def waysThrough (g : Graph) (children : List Nat) (j : Nat) : Set (List Nat) :=
  {turns | ∃ turn later c, turns = turn :: later ∧ children[turn]? = some c ∧
    g.descend c later = some j}

/-- The same way, if one more child stands in front. -/
def shift : List Nat → List Nat
  | [] => []
  | turn :: later => (turn + 1) :: later

/-- Counting the first turn one further tells ways apart as before. -/
theorem shift_injective : Function.Injective shift := by
  intro ts us h
  cases ts with
  | nil =>
    cases us with
    | nil => rfl
    | cons u us => cases h
  | cons t ts =>
    cases us with
    | nil => cases h
    | cons u us =>
      simp only [shift, List.cons.injEq, Nat.add_right_cancel_iff] at h
      rw [h.1, h.2]

/-- A way from a node ends there without a turn, or goes on through
one of its children. -/
theorem ways_eq (g : Graph) (i j : Nat) :
    g.ways i j = {turns | turns = [] ∧
      i = j} ∪ g.waysThrough (g.childrenAt i).toList j := by
  ext turns
  cases turns with
  | nil => simp [ways, waysThrough, descend]
  | cons turn later =>
    simp only [ways, waysThrough, descend, Set.mem_ofPred_eq, Set.mem_union,
      Option.bind_eq_some_iff, Array.getElem?_toList]
    constructor
    · intro hex
      obtain ⟨c, hc, hlater⟩ := hex
      exact .inr ⟨turn, later, c, rfl, hc, hlater⟩
    · rintro (⟨h, -⟩ | ⟨_, _, c, h, hc, hlater⟩)
      · cases h
      · cases h
        exact ⟨c, hc, hlater⟩

/-- Through no reference there is no way. -/
theorem waysThrough_nil (g : Graph) (j : Nat) : g.waysThrough [] j = ∅ := by
  ext turns
  simp [waysThrough]

/-- Through several references a way turns at the first or at one of
the others, whose turns are counted one further. -/
theorem waysThrough_cons (g : Graph) (c : Nat) (children : List Nat) (j : Nat) :
    g.waysThrough (c :: children) j =
      (0 :: ·) '' g.ways c j ∪ shift '' g.waysThrough children j := by
  ext turns
  constructor
  · intro h
    obtain ⟨turn, later, d, rfl, hd, hlater⟩ := h
    cases turn with
    | zero =>
      cases hd
      exact .inl ⟨later, hlater, rfl⟩
    | succ turn =>
      exact .inr ⟨turn :: later, ⟨turn, later, d, rfl, hd, hlater⟩, rfl⟩
  · rintro (⟨later, hlater, rfl⟩ | ⟨_, ⟨turn, later, d, rfl, hd, hlater⟩, rfl⟩)
    · exact ⟨0, later, c, rfl, rfl, hlater⟩
    · exact ⟨turn + 1, later, d, rfl, hd, hlater⟩

/-- Ways through different references differ in their first turn. Even
if they lead to the same child. -/
theorem disjoint_waysThrough (g : Graph) (c : Nat)
    (children : List Nat) (j : Nat) :
    Disjoint ((0 :: ·) '' g.ways c j) (shift '' g.waysThrough children j) := by
  rw [Set.disjoint_left]
  rintro _ ⟨later, -, rfl⟩ ⟨_, ⟨turn, later', d, rfl, -, -⟩, h⟩
  cases h

/-- If there are finitely many ways from every child, there are so
through all of them. -/
theorem finite_waysThrough (h : ∀ c ∈ children, (g.ways c j).Finite) :
    (g.waysThrough children j).Finite := by
  induction children with
  | nil =>
    rw [waysThrough_nil]
    exact Set.finite_empty
  | cons c children ih =>
    obtain ⟨hc, hchildren⟩ := List.forall_mem_cons.1 h
    rw [waysThrough_cons]
    exact (hc.image _).union ((ih hchildren).image _)

/-- And there are as many as there are from each child together; a
child that is listed twice counts twice. -/
theorem ncard_waysThrough (h : ∀ c ∈ children, (g.ways c j).Finite) :
    (g.waysThrough children j).ncard =
      (children.map fun c => (g.ways c j).ncard).sum := by
  induction children with
  | nil =>
    rw [waysThrough_nil, Set.ncard_empty]
    rfl
  | cons c children ih =>
    obtain ⟨hc, hchildren⟩ := List.forall_mem_cons.1 h
    rw [waysThrough_cons, Set.ncard_union_eq
      (disjoint_waysThrough g c children j) (hc.image _)
      ((finite_waysThrough hchildren).image _),
      Set.ncard_image_of_injective _ List.cons_injective,
      Set.ncard_image_of_injective _ shift_injective, ih hchildren]
    rfl

/-- So there are finitely many from the node itself. -/
theorem finite_ways (h : ∀ c ∈ g.childrenAt i,
    (g.ways c j).Finite) : (g.ways i j).Finite := by
  have hempty : {turns : List Nat | turns = [] ∧ i = j}.Finite :=
    (Set.finite_singleton []).subset fun turns ht => ht.1
  rw [ways_eq]
  exact hempty.union (finite_waysThrough
    fun c hc => h c (Array.mem_toList_iff.1 hc))

/-- A node has the ways of its children, one reference after the
other, and one more if it is where they are to lead. -/
theorem ncard_ways (h : ∀ c ∈ g.childrenAt i, (g.ways c j).Finite) :
    (g.ways i j).ncard = (if i = j then 1 else 0) +
      ((g.childrenAt i).toList.map fun c => (g.ways c j).ncard).sum := by
  have hchildren : ∀ c ∈ (g.childrenAt i).toList, (g.ways c j).Finite :=
    fun c hc => h c (Array.mem_toList_iff.1 hc)
  have hempty : {turns : List Nat | turns = [] ∧ i = j}.ncard =
      if i = j then 1 else 0 := by
    by_cases hij : i = j
    · simp [hij]
    · simp [hij]
  have hdisjoint : Disjoint {turns : List Nat | turns = [] ∧ i = j}
      (g.waysThrough (g.childrenAt i).toList j) := by
    rw [Set.disjoint_left]
    rintro _ ⟨rfl, -⟩ ⟨_, _, _, h, -⟩
    cases h
  rw [ways_eq, Set.ncard_union_eq hdisjoint
    ((Set.finite_singleton []).subset fun turns ht => ht.1)
      (finite_waysThrough hchildren),
    hempty, ncard_waysThrough hchildren]

-- ========================================================== parents first

/-- Every node is followed by all of its children, and by itself not
again. -/
inductive ParentsFirst (g : Graph) : List Nat → Prop where
  | nil : ParentsFirst g []
  | cons {i : Nat} {rest : List Nat} (hi : i ∉ rest)
      (hchildren : ∀ c ∈ g.childrenAt i, c ∈ rest)
      (hrest : ParentsFirst g rest) : ParentsFirst g (i :: rest)

/-- No node stands twice in such a list, since none stands behind
itself. -/
theorem ParentsFirst.nodup (h : ParentsFirst g order) : order.Nodup := by
  induction h with
  | nil => exact List.nodup_nil
  | cons hi _ _ ih => exact List.nodup_cons.2 ⟨hi, ih⟩

/-- The children of what is in the list are in it, -/
theorem ParentsFirst.mem_of_child (h : ParentsFirst g order) (hi : i ∈ order)
    (hc : c ∈ g.childrenAt i) : c ∈ order := by
  induction h with
  | nil => cases hi
  | cons _ hchildren _ ih =>
    rcases List.mem_cons.1 hi with rfl | hi
    · exact List.mem_cons_of_mem _ (hchildren c hc)
    · exact List.mem_cons_of_mem _ (ih hi)

/-- and so is everything below. -/
theorem ParentsFirst.mem_of_reached (h : ParentsFirst g order) (hi : i ∈ order)
    (hj : Relation.ReflTransGen g.Child i j) : j ∈ order := by
  induction hj with
  | refl => exact hi
  | tail _ hc ih => exact h.mem_of_child ih hc

/-- Nothing in such a list is below itself. What is below it stands
behind it, and it does not stand behind itself. -/
theorem ParentsFirst.not_below_self (h : ParentsFirst g order)
    (hi : i ∈ order) :
    ¬Relation.TransGen g.Child i i := by
  induction h with
  | nil => cases hi
  | @cons first rest hfirst hchildren hrest ih =>
    intro hbelow
    obtain ⟨c, hc, hback⟩ := Relation.TransGen.head'_iff.1 hbelow
    rcases List.mem_cons.1 hi with rfl | hi
    · exact hfirst (hrest.mem_of_reached (hchildren c hc) hback)
    · exact ih hi hbelow

/-- From a node in such a list there are finitely many ways to any
other. The induction is along the list: a way from its first node goes
on among the nodes behind it. -/
theorem ParentsFirst.finite_ways (h : ParentsFirst g order)
    (hi : i ∈ order) (j : Nat) :
    (g.ways i j).Finite := by
  induction h generalizing i with
  | nil => cases hi
  | cons _ hchildren _ ih =>
    rcases List.mem_cons.1 hi with rfl | hi
    · exact Graph.finite_ways fun c hc => ih (hchildren c hc)
    · exact ih hi

end XorSpan.Graph
