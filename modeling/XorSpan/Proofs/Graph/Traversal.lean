/-
What the passes over a graph tell of the nodes that the root leads to. A
graph made by calls may have cycles, and nodes that nothing leads to. It
can be put in order exactly if the root leads to no cycle, and then the
order has the root first, every node that the root leads to once, and
each of them before its children (`order_outcome`).

Handing parities down such an order counts, modulo two, the ways from the
root to each node (`parity_outcome`). Nodes that the root does not lead
to have no part in it: they are not in the order, so nothing is handed
down to them or from them, whatever cycles they are on.
-/
import XorSpan.Proofs.Graph.Edits
import XorSpan.Proofs.Graph.Parity

namespace XorSpan.Graph

open Relation

variable {g : Graph} {order turns : List Nat} {i j : Nat}

/-- The root leads to a node that is below itself. -/
def CyclicBelowRoot (g : Graph) : Prop :=
  ∃ i, ReflTransGen g.Child 0 i ∧ TransGen g.Child i i

-- ================================================================= orders

/-- The nodes that the root leads to, each once, the root first and
parents before children. -/
structure IsOrder (g : Graph) (order : List Nat) : Prop where
  nodup : order.Nodup
  mem : ∀ i, i ∈ order ↔ ReflTransGen g.Child 0 i
  head : order.head? = some 0
  before : ∀ i ∈ order, ∀ c, g.Child i c → order.idxOf i < order.idxOf c

theorem ParentsFirst.idxOf_lt {c : Nat} (h : ParentsFirst g order)
    (hi : i ∈ order)
    (hc : g.Child i c) : order.idxOf i < order.idxOf c := by
  induction h with
  | nil => cases hi
  | @cons first rest hfirst hchildren hrest ih =>
    have hne : first ≠ c := by
      rintro rfl
      rcases List.mem_cons.1 hi with rfl | hi
      · exact hfirst (hchildren i hc)
      · exact hfirst (hrest.mem_of_child hi hc)
    rw [List.idxOf_cons_ne _ hne]
    rcases List.mem_cons.1 hi with rfl | hi
    · rw [List.idxOf_cons_self]
      exact Nat.succ_pos _
    · have hother : first ≠ i := fun heq => hfirst (heq ▸ hi)
      rw [List.idxOf_cons_ne _ hother]
      exact Nat.succ_lt_succ (ih hi)

/-- What comes first has no parent in the list. A parent would stand
before it. -/
theorem ParentsFirst.not_child_head {first : Nat} {rest : List Nat}
    (h : ParentsFirst g (first :: rest)) (hi : i ∈ first :: rest) :
    ¬g.Child i first := by
  intro hchild
  have hlt := h.idxOf_lt hi hchild
  rw [List.idxOf_cons_self] at hlt
  exact Nat.not_lt_zero _ hlt

/-- A list of what the root leads to, parents first, begins with the
root. Whatever comes first would have a parent otherwise. -/
theorem ParentsFirst.isOrder (h : ParentsFirst g order)
    (hmem : ∀ i, i ∈ order ↔ ReflTransGen g.Child 0 i) : IsOrder g order where
  nodup := h.nodup
  mem := hmem
  head := by
    cases order with
    | nil => exact absurd ((hmem 0).2 .refl) List.not_mem_nil
    | cons first rest =>
      rcases ReflTransGen.cases_tail
        ((hmem first).1 (List.mem_cons_self ..)) with
        rfl | ⟨i, hi, hchild⟩
      · rfl
      · exact absurd hchild (h.not_child_head ((hmem i).2 hi))
  before _ hi _ hc := h.idxOf_lt hi hc

theorem not_cyclicBelowRoot (h : ParentsFirst g order)
    (hmem : ∀ i, i ∈ order ↔
      ReflTransGen g.Child 0 i) : ¬g.CyclicBelowRoot := by
  intro ⟨i, hi, hbelow⟩
  exact h.not_below_self ((hmem i).2 hi) hbelow

/-- Putting a graph made by calls in order comes to a defect of the
order exactly if the root leads to a cycle, and otherwise to an order
of all that the root leads to. -/
theorem order_outcome (root : Bytes) (edits : List Edit) :
    ((∃ what, ((ofRoot root).editAll edits).order.outcome =
      .error (.defect .order what)) ↔
      ((ofRoot root).editAll edits).CyclicBelowRoot) ∧
    (¬((ofRoot root).editAll edits).CyclicBelowRoot →
      ∃ order, ((ofRoot root).editAll edits).order.outcome = .ok order ∧
        IsOrder ((ofRoot root).editAll edits) order) := by
  generalize hg : (ofRoot root).editAll edits = g
  have hmade : Made g := hg ▸ made_editAll root edits
  obtain ⟨r, hscript, hordering⟩ := scripted_order hmade.formed
  rw [hscript.outcome_eq]
  cases hordering with
  | @listed order parentsFirst mem =>
    refine ⟨iff_of_false ?_ (not_cyclicBelowRoot parentsFirst mem), ?_⟩
    · intro ⟨what, h⟩
      cases h
    · intro _
      exact ⟨order, rfl, parentsFirst.isOrder mem⟩
  | @cyclic i below reached =>
    have hcyclic : g.CyclicBelowRoot := ⟨i, reached, below⟩
    exact ⟨iff_of_true ⟨_, rfl⟩ hcyclic, fun h => absurd hcyclic h⟩

-- ============================================================ multiplicity

theorem reached_of_descend (h : g.descend i turns = some j) :
    ReflTransGen g.Child i j := by
  induction turns generalizing i with
  | nil =>
    cases h
    exact .refl
  | cons turn turns ih =>
    obtain ⟨c, hc, hlater⟩ := Option.bind_eq_some_iff.1 h
    exact .head (Array.mem_of_getElem? hc) (ih hlater)

/-- No way leads to where the root does not lead. -/
theorem ways_eq_empty (hi : ¬ReflTransGen g.Child 0 i) : g.ways 0 i = ∅ :=
  Set.eq_empty_of_forall_notMem fun _ hturns => hi (reached_of_descend hturns)

/-- The one way back to the root is to stay there. Any other way would
be a cycle. -/
theorem ways_root (hg : ¬g.CyclicBelowRoot) : g.ways 0 0 = {[]} := by
  ext turns
  rw [Set.mem_singleton_iff]
  constructor
  · intro h
    cases turns with
    | nil => rfl
    | cons turn turns =>
      obtain ⟨c, hc, hlater⟩ := Option.bind_eq_some_iff.1 h
      have hbelow : TransGen g.Child 0 0 :=
        .head' (Array.mem_of_getElem? hc) (reached_of_descend hlater)
      exact absurd ⟨0, .refl, hbelow⟩ hg
  · rintro rfl
    rfl

/-- Nothing is handed down to a node that the root does not lead to.
Its mark stays as it was at first, unset. -/
theorem getD_parityOf_of_not_mem (h : ParentsFirst g order) (hroot : 0 ∈ order)
    (hi : i ∉ order) :
    (g.parityOf order).getD i false = false := by
  have hne : i ≠ 0 := fun heq => hi (heq ▸ hroot)
  unfold parityOf
  rw [getD_foldl_handDown_of_not_mem
    fun k hk hmem => hi (h.mem_of_child hk hmem),
    Bool.eq_false_iff]
  exact fun hodd => hne ((getD_rootParity g i).1 hodd)

theorem size_parityOf (g : Graph) (order : List Nat) :
    (g.parityOf order).size = g.size := by
  have hfold : ∀ parity : Array Bool, (order.foldl g.handDown parity).size =
      parity.size := by
    intro parity
    induction order generalizing parity with
    | nil => rfl
    | cons i order ih => rw [List.foldl_cons, ih, size_handDown]
  unfold parityOf
  rw [hfold, size_rootParity]

/-- In a graph whose root leads to no cycle, every node gets the
number of ways from the root to it, modulo two: the root one, and a
node that the root does not lead to none. -/
theorem parity_outcome (hg : g.Formed) (hacyclic : ¬g.CyclicBelowRoot) :
    ∃ parity, g.parity.outcome = .ok parity ∧ parity.size = g.size ∧
      (∀ i < g.size, (g.ways 0 i).Finite ∧
        (parity[i]?).map Bool.toNat = some ((g.ways 0 i).ncard % 2)) ∧
      (g.ways 0 0).ncard = 1 ∧
      ∀ i, ¬ReflTransGen g.Child 0 i → (g.ways 0 i).ncard = 0 := by
  obtain ⟨r, hscript, hordering⟩ := scripted_order hg
  cases hordering with
  | @cyclic i below reached => exact absurd ⟨i, reached, below⟩ hacyclic
  | @listed order horder hmem =>
    have hroot : 0 ∈ order := (hmem 0).2 .refl
    have hrange : ∀ i ∈ order, i < g.size := by
      intro i hi
      rcases ReflTransGen.cases_tail ((hmem i).1 hi) with rfl | ⟨k, -, hchild⟩
      · exact g.nonempty
      · exact hg k i hchild
    have hodd : ∀ i, (g.parityOf order).getD i false = true ↔
        Odd (g.ways 0 i).ncard := by
      intro i
      by_cases hi : i ∈ order
      · exact odd_iff horder hroot hrange hi
      · rw [getD_parityOf_of_not_mem horder hroot hi,
          ways_eq_empty (mt (hmem i).2 hi), Set.ncard_empty]
        decide
    refine ⟨_, (scripted_parity hscript).outcome_eq,
      size_parityOf g order, ?_, ?_, ?_⟩
    · intro i hi
      refine ⟨horder.finite_ways hroot i, ?_⟩
      have hlt : i < (g.parityOf order).size := by
        rw [size_parityOf]
        exact hi
      have hbit := hodd i
      rw [Array.getD_eq_getD_getElem?] at hbit
      rw [Array.getElem?_eq_getElem hlt] at hbit ⊢
      rw [Nat.odd_iff] at hbit
      cases h : (g.parityOf order)[i] <;> simp_all
    · rw [ways_root hacyclic, Set.ncard_singleton]
    · intro i hi
      rw [ways_eq_empty hi, Set.ncard_empty]

/-- Where the nodes below a number have children below that number
only, and each after its parent, the root leads to no cycle. -/
theorem not_cyclicBelowRoot_of_lt {n : Nat} (hpos : 0 < n)
    (h : ∀ i < n, ∀ c, g.Child i c → i < c ∧ c < n) : ¬g.CyclicBelowRoot := by
  have hreached : ∀ {i}, ReflTransGen g.Child 0 i → i < n := by
    intro i hi
    induction hi with
    | refl => exact hpos
    | tail _ hc ih => exact (h _ ih _ hc).2
  have hbelow : ∀ {i j}, i < n → TransGen g.Child i j → i < j ∧ j < n := by
    intro i j hi hij
    induction hij with
    | single hc => exact h _ hi _ hc
    | tail _ hc ih =>
      obtain ⟨hlt, hn⟩ := h _ ih.2 _ hc
      exact ⟨Nat.lt_trans ih.1 hlt, hn⟩
  intro ⟨i, hi, hcycle⟩
  exact Nat.lt_irrefl i (hbelow (hreached hi) hcycle).1

/-- A value that is referred to three times below the root, twice by
one node, and once more by a node of a cycle that the root does not
lead to. -/
def strayed : Graph where
  nodes := #[⟨#[7], #[1, 2], 1⟩, ⟨#[1], #[3], 1⟩,
    ⟨#[2], #[3, 3], 1⟩, ⟨#[4], #[], 4⟩, ⟨#[5], #[3, 5], 2⟩, ⟨#[6], #[4], 1⟩]
  index := .ofList [(#[1], 1), (#[2], 2), (#[4], 3), (#[5], 4), (#[6], 5)]
  nonempty := by decide

theorem parity_outcome_strayed :
    strayed.Formed ∧ ¬strayed.CyclicBelowRoot ∧ strayed.Cyclic ∧
    ∃ parity, strayed.parity.outcome = .ok parity ∧ parity.size = 6 ∧
      (∀ i < 6, (strayed.ways 0 i).Finite ∧
        (parity[i]?).map Bool.toNat = some ((strayed.ways 0 i).ncard % 2)) ∧
      (strayed.ways 0 0).ncard = 1 ∧
      ∀ i, ¬ReflTransGen strayed.Child 0 i → (strayed.ways 0 i).ncard = 0 := by
  have hchildren : ∀ i < 6, ∀ c ∈ strayed.childrenAt i, c < 6 := by
    decide +kernel
  have hafter : ∀ i < 4, ∀ c ∈ strayed.childrenAt i, i < c ∧ c < 4 := by
    decide +kernel
  have hformed : strayed.Formed :=
    fun i c hc => hchildren i (lt_of_mem_childrenAt hc) c hc
  have hacyclic : ¬strayed.CyclicBelowRoot :=
    not_cyclicBelowRoot_of_lt (by decide) fun i hi c hc => hafter i hi c hc
  have hdown : strayed.Child 4 5 := by
    show 5 ∈ strayed.childrenAt 4
    decide +kernel
  have hup : strayed.Child 5 4 := by
    show 4 ∈ strayed.childrenAt 5
    decide +kernel
  exact ⟨hformed, hacyclic, ⟨4, .tail (.single hdown) hup⟩,
    parity_outcome hformed hacyclic⟩

end XorSpan.Graph
