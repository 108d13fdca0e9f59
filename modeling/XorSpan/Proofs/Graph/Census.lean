/-
What a solution says of its graph. A value that is needed and that
nothing explains is the one thing that keeps the graph from being drawn.
If there is none, the graph has a node to each value that is needed,
besides the root; the children of a node, how often it was asked for and
the counters of the whole are all told by the solution
(`graph_outcome`).

The counters are sums over the nodes. Below the root, a node stands for
its value, so these sums count values (`ncard_needed`).
-/
import Mathlib.Algebra.BigOperators.Intervals
import Mathlib.Algebra.BigOperators.Ring.Finset
import XorSpan.Proofs.Graph.Reduction
import XorSpan.Proofs.Graph.Usage

namespace XorSpan.Solution

open XorSpan.Graph Relation

variable {s : Solution} {g : Graph} {v : Bytes} {i : Nat}

-- ========================================================= what is needed

/-- Nothing explains the value: it is zero, or it is neither a nonzero
pool member nor recorded. -/
def Unexplained (s : Solution) (v : Bytes) : Prop :=
  v.isZero = true ∨ (¬(v ∈ s.pool ∧ v.isZero = false) ∧ s.records.get? v = none)

/-- Every summand of a node has a node of its own. It is one of the
node's children. -/
theorem IsGraphOf.exists_node_of_mem (hg : IsGraphOf s g)
    (hv : v ∈ g.summands i) :
    ∃ c, 0 < c ∧ c < g.size ∧ g.valueAt c = v := by
  obtain ⟨c, hc, hvalue⟩ := List.mem_map.1 hv
  obtain ⟨hpos, hlt⟩ := hg.range i c (Array.mem_toList_iff.1 hc)
  exact ⟨c, hpos, hlt, hvalue⟩

/-- The summands of a node that is not in the pool are the operands of
its record. -/
theorem IsGraphOf.summands_of_record (hg : IsGraphOf s g) (hpos : 0 < i)
    (hi : i < g.size)
    {r : Record} (hpool : g.valueAt i ∉ s.pool)
    (hr : s.records.get? (g.valueAt i) = some r) :
    g.summands i = [r.left, r.right] := by
  rcases (hg.explained i hpos hi).source with
    ⟨hmem, -⟩ | ⟨-, r', hr', hsummands⟩
  · exact absurd hmem hpool
  · rw [hr] at hr'
    cases hr'
    exact hsummands

/-- Every value that is needed has a node below the root. It was
computed, or it is an operand of a record that is needed. -/
theorem IsGraphOf.exists_node (hg : IsGraphOf s g) (hv : s.Needed v) :
    ∃ i, 0 < i ∧ i < g.size ∧ g.valueAt i = v := by
  induction hv with
  | computed hv =>
    rw [← hg.computed] at hv
    exact hg.exists_node_of_mem hv
  | left _ _ hpool hr ih =>
    obtain ⟨i, hpos, hi, rfl⟩ := ih
    refine hg.exists_node_of_mem (i := i) ?_
    rw [hg.summands_of_record hpos hi hpool hr]
    exact List.mem_cons_self ..
  | right _ _ hpool hr ih =>
    obtain ⟨i, hpos, hi, rfl⟩ := ih
    refine hg.exists_node_of_mem (i := i) ?_
    rw [hg.summands_of_record hpos hi hpool hr]
    exact List.mem_cons_of_mem _ (List.mem_singleton_self _)

/-- The value of every node below the root is needed. A node is only
made for a value that is attached to one that is there. -/
theorem IsGraphOf.needed (hg : IsGraphOf s g) (hpos : 0 < i) (hi : i < g.size) :
    s.Needed (g.valueAt i) := by
  have hreached := hg.reached i hi
  clear hi
  induction hreached with
  | refl => exact absurd hpos (Nat.lt_irrefl 0)
  | @tail i c _ hc ih =>
    rcases Nat.eq_zero_or_pos i with rfl | hposi
    · exact .computed (hg.valueAt_of_root hc)
    · have hzero := (hg.explained i hposi (lt_of_mem_childrenAt hc)).nonzero
      obtain ⟨hpool, r, hr, heq | heq⟩ := hg.valueAt_of_child hposi hc
      · rw [heq]
        exact (ih hposi).left hzero hpool hr
      · rw [heq]
        exact (ih hposi).right hzero hpool hr

/-- If the graph could be drawn, all that is needed is explained. Each
value has a node, and each node an explanation. -/
theorem IsGraphOf.not_unexplained (hg : IsGraphOf s g) (hv : s.Needed v) :
    ¬s.Unexplained v := by
  obtain ⟨i, hpos, hi, rfl⟩ := hg.exists_node hv
  obtain ⟨hnonzero, hsource⟩ := hg.explained i hpos hi
  rintro (hzero | ⟨hbase, hnone⟩)
  · rw [hnonzero] at hzero
    cases hzero
  · rcases hsource with ⟨hpool, -⟩ | ⟨-, r, hr, -⟩
    · exact hbase ⟨hpool, hnonzero⟩
    · rw [hnone] at hr
      cases hr

/-- The children of a node are the nodes of its summands. There is no
other node with such a value, so the children are told by the
summands. -/
theorem IsGraphOf.map_childrenAt (hg : IsGraphOf s g) (i : Nat) :
    (g.childrenAt i).toList.map some = (g.summands i).map g.indexOf? := by
  unfold summands
  rw [List.map_map]
  refine List.map_congr_left ?_
  intro c hc
  obtain ⟨hpos, hlt⟩ := hg.range i c (Array.mem_toList_iff.1 hc)
  exact ((hg.indexed _ c).2 ⟨hpos, hlt, rfl⟩).symm

-- ================================================================ picture

/-- The graph as the solution tells it, node by node. -/
structure DrawnAs (s : Solution) (g : Graph) : Prop where
  target : g.valueAt 0 = s.target
  /-- The root's children are the nodes of the computed values, repeated
  ones included. -/
  computed : (g.childrenAt 0).toList.map some = s.computed.map g.indexOf?
  indexed : g.Indexed
  unique : ∀ v, s.Needed v → ∃! i, 0 < i ∧ i < g.size ∧ g.valueAt i = v
  needed : ∀ i, 0 < i → i < g.size →
    s.Needed (g.valueAt i) ∧ (g.valueAt i).isZero = false
  /-- A pool member has no children, even if there is a record for it. -/
  pool : ∀ i, 0 < i → i < g.size → g.valueAt i ∈ s.pool → g.childrenAt i = #[]
  derived : ∀ i, 0 < i → i < g.size → g.valueAt i ∉ s.pool →
    ∃ r, s.records.get? (g.valueAt i) = some r ∧
      (g.childrenAt i).toList.map some = [g.indexOf? r.left, g.indexOf? r.right]
  reached : ∀ i < g.size, ReflTransGen g.Child 0 i
  root : g.usageAt 0 = 1
  usage : ∀ i, 0 < i → g.usageAt i = g.references i

/-- What is not below the root is nobody's child. It is so for the
root as well, since it is not found by its value. -/
theorem IsGraphOf.references_eq_zero (hg : IsGraphOf s g)
    (hi : i = 0 ∨ g.size ≤ i) :
    g.references i = 0 := by
  refine Finset.sum_eq_zero ?_
  intro j _
  refine Array.count_eq_zero.2 ?_
  intro h
  obtain ⟨hpos, hlt⟩ := hg.range j i h
  omega

/-- The graph shows what is needed, each value once and with its own
summands. -/
theorem IsGraphOf.drawnAs (hg : IsGraphOf s g)
    (hcounted : g.Counted) : s.DrawnAs g where
  target := hg.target
  computed := by rw [hg.map_childrenAt, hg.computed]
  indexed := hg.indexed
  unique v hv := by
    obtain ⟨i, hi⟩ := hg.exists_node hv
    refine ⟨i, hi, ?_⟩
    intro j hj
    exact hg.indexed.inj ⟨hj.1, hj.2.1⟩ ⟨hi.1, hi.2.1⟩
      (hj.2.2.trans hi.2.2.symm)
  needed i hpos hi := ⟨hg.needed hpos hi, (hg.explained i hpos hi).nonzero⟩
  pool i hpos hi hpool := by
    rcases (hg.explained i hpos hi).source with ⟨-, hnone⟩ | ⟨hforeign, -⟩
    · exact childrenAt_eq_empty_iff.2 hnone
    · exact absurd hpool hforeign
  derived i hpos hi hforeign := by
    rcases (hg.explained i hpos hi).source with
      ⟨hpool, -⟩ | ⟨-, r, hr, hsummands⟩
    · exact absurd hpool hforeign
    · refine ⟨r, hr, ?_⟩
      rw [hg.map_childrenAt, hsummands]
      rfl
  reached := hg.reached
  root := by rw [hcounted 0, hg.references_eq_zero (.inl rfl), if_pos rfl]
  usage i hpos := by rw [hcounted i, if_neg (Nat.ne_of_gt hpos), Nat.add_zero]

-- =============================================================== counters

/-- The nodes in a list are the nodes by their numbers, so that what
is counted in the array can be counted by numbers. -/
theorem toList_nodes (g : Graph) :
    g.nodes.toList = (List.range g.size).map fun i =>
      g.nodes[i]?.getD default := by
  rw [← List.zipIdx_map_fst 0 g.nodes.toList, zipIdx_nodes, List.map_map]
  rfl

/-- Counting nodes is a sum over their numbers. It is the form in
which all counters are brought. -/
theorem countP_nodes {p : Node → Bool} {P : Nat → Prop} [DecidablePred P]
    (hp : ∀ i < g.size, p (g.nodes[i]?.getD default) = true ↔ P i) :
    g.nodes.countP p = ∑ i ∈ Finset.range g.size, if P i then 1 else 0 := by
  rw [← Array.countP_toList, toList_nodes, List.countP_map,
    List.countP_eq_length_filter, ← Finset.card_filter]
  have hfilter :
      (List.range g.size).filter (p ∘ fun i => g.nodes[i]?.getD default) =
      (List.range g.size).filter fun i => decide (P i) := by
    refine List.filter_congr ?_
    intro i hi
    rw [Bool.eq_iff_iff, decide_eq_true_eq]
    exact hp i (List.mem_range.1 hi)
  rw [hfilter]
  rfl

/-- Adding up the children is a sum over the numbers. -/
theorem foldl_nodes (g : Graph) :
    g.nodes.foldl (fun n node => n + node.children.size) 0 =
      ∑ i ∈ Finset.range g.size, (g.summands i).length := by
  have hlength : ∀ i < g.size,
      (g.nodes[i]?.getD default).children.size = (g.summands i).length := by
    intro i hi
    unfold summands childrenAt
    rw [List.length_map, Array.length_toList, Array.getElem?_eq_getElem hi]
    rfl
  have hsum : ∀ n ≤ g.size,
      ((List.range n).map fun i => g.nodes[i]?.getD default).foldl
      (fun n node => n + node.children.size) 0 =
        ∑ i ∈ Finset.range n, (g.summands i).length := by
    intro n hn
    induction n with
    | zero => rfl
    | succ n ih =>
      rw [List.range_succ, List.map_append, List.foldl_append,
        ih (Nat.le_of_succ_le hn), Finset.sum_range_succ, ← hlength n hn]
      rfl
  rw [← Array.foldl_toList, toList_nodes]
  exact hsum g.size (Nat.le_refl _)

/-- A sum over the nodes, the root's share apart. The root is not
needed by anything, so it is never counted with the values. -/
theorem sum_nodes (g : Graph) (share : Nat → Nat) :
    ∑ i ∈ Finset.range g.size,
    share i = share 0 + ∑ i ∈ Finset.Ico 1 g.size, share i := by
  rw [Finset.range_eq_Ico]
  exact Finset.sum_eq_sum_Ico_succ_bot g.nonempty share

/-- Below the root, counting nodes by their values is counting values.
Nodes and values that are needed are in one-to-one correspondence
there. -/
theorem IsGraphOf.ncard_needed (hg : IsGraphOf s g)
    (P : Bytes → Prop) [DecidablePred P] :
    {v | s.Needed v ∧ P v}.ncard = ∑ i ∈ Finset.Ico 1 g.size,
    if P (g.valueAt i) then 1 else 0 := by
  have hvalues : {v | s.Needed v ∧ P v} =
      g.valueAt '' ((Finset.Ico 1 g.size).filter fun i => P (g.valueAt i)) := by
    ext v
    constructor
    · intro h
      obtain ⟨hv, hP⟩ := h
      obtain ⟨i, hpos, hi, rfl⟩ := hg.exists_node hv
      exact ⟨i, Finset.mem_coe.2
        (Finset.mem_filter.2 ⟨Finset.mem_Ico.2 ⟨hpos, hi⟩, hP⟩), rfl⟩
    · rintro ⟨i, hi, rfl⟩
      obtain ⟨hi, hP⟩ := Finset.mem_filter.1 (Finset.mem_coe.1 hi)
      obtain ⟨hpos, hi⟩ := Finset.mem_Ico.1 hi
      exact ⟨hg.needed hpos hi, hP⟩
  have hinj : Set.InjOn g.valueAt
      ((Finset.Ico 1 g.size).filter fun i => P (g.valueAt i)) := by
    intro i hi j hj heq
    have hi := (Finset.mem_filter.1 (Finset.mem_coe.1 hi)).1
    have hj := (Finset.mem_filter.1 (Finset.mem_coe.1 hj)).1
    exact hg.indexed.inj (Finset.mem_Ico.1 hi) (Finset.mem_Ico.1 hj) heq
  rw [hvalues, hinj.ncard_image, Set.ncard_coe_finset, Finset.card_filter]

/-- Only finitely many values are needed, as each has a node. -/
theorem IsGraphOf.finite_needed (hg : IsGraphOf s g) :
    {v | s.Needed v}.Finite := by
  refine ((Finset.Ico 1 g.size).finite_toSet.image g.valueAt).subset ?_
  intro v hv
  obtain ⟨i, hpos, hi, rfl⟩ := hg.exists_node hv
  exact ⟨i, Finset.mem_coe.2 (Finset.mem_Ico.2 ⟨hpos, hi⟩), rfl⟩

/-- Besides the root, every node is a pool member or derived. What is
needed is one or the other, and not both. -/
theorem IsGraphOf.size_eq (hg : IsGraphOf s g) :
    g.size = {v | s.Needed v ∧ v ∈ s.pool}.ncard +
      {v | s.Needed v ∧ v ∉ s.pool}.ncard + 1 := by
  have hboth : ∀ i, ((if g.valueAt i ∈ s.pool then 1 else 0) +
      if g.valueAt i ∉ s.pool then 1 else 0) = 1 := by
    intro i
    by_cases hpool : g.valueAt i ∈ s.pool
    · rw [if_pos hpool, if_neg (not_not_intro hpool)]
    · rw [if_neg hpool, if_pos hpool]
  have hpos : 0 < g.size := g.nonempty
  rw [hg.ncard_needed (· ∈ s.pool), hg.ncard_needed (· ∉ s.pool),
    ← Finset.sum_add_distrib, Finset.sum_congr rfl fun i _ =>
      hboth i, ← Finset.card_eq_sum_ones, Nat.card_Ico]
  omega

/-- There is a node for each of them, and the root. -/
theorem IsGraphOf.ncard_all (hg : IsGraphOf s g) :
    g.size = {v | s.Needed v}.ncard + 1 := by
  have hall := hg.ncard_needed fun _ => True
  have hpos : 0 < g.size := g.nonempty
  simp only [and_true, if_true, ← Finset.card_eq_sum_ones, Nat.card_Ico] at hall
  omega

/-- The root refers to every value computed, and a derived value to
its two operands; no other node refers to any. -/
theorem IsGraphOf.edges (hg : IsGraphOf s g) :
    g.stats.edges = s.computed.length + 2 *
      {v | s.Needed v ∧ v ∉ s.pool}.ncard := by
  have hlength : ∀ i ∈ Finset.Ico 1 g.size,
      (g.summands i).length = 2 * if g.valueAt i ∉ s.pool then 1 else 0 := by
    intro i hi
    obtain ⟨hpos, hi⟩ := Finset.mem_Ico.1 hi
    rcases (hg.explained i hpos hi).source with
      ⟨hpool, hnone⟩ | ⟨hpool, r, -, hsummands⟩
    · rw [hnone, if_neg (not_not_intro hpool)]
      rfl
    · rw [hsummands, if_pos hpool]
      rfl
  calc g.stats.edges
      = ∑ i ∈ Finset.range g.size, (g.summands i).length := foldl_nodes g
    _ = s.computed.length + ∑ i ∈ Finset.Ico 1 g.size,
        (g.summands i).length := by
        rw [sum_nodes, hg.computed]
    _ = s.computed.length + 2 * {v | s.Needed v ∧ v ∉ s.pool}.ncard := by
        rw [Finset.sum_congr rfl hlength, ← Finset.mul_sum,
          hg.ncard_needed (· ∉ s.pool)]

/-- The leaves are the pool members that are needed. A root without
values counts as one too. -/
theorem IsGraphOf.leaves (hg : IsGraphOf s g) :
    g.stats.leaves = {v | s.Needed v ∧ v ∈ s.pool}.ncard +
      if s.computed = [] then 1 else 0 := by
  have hleaf : ∀ i < g.size, (g.nodes[i]?.getD default).isLeaf = true ↔
      g.summands i = [] := by
    intro i hi
    rw [isLeaf_node hi, childrenAt_eq_empty_iff]
  have hpool : ∀ i ∈ Finset.Ico 1 g.size,
      (if g.summands i = [] then 1 else 0) =
        if g.valueAt i ∈ s.pool then 1 else 0 := by
    intro i hi
    obtain ⟨hpos, hi⟩ := Finset.mem_Ico.1 hi
    rcases (hg.explained i hpos hi).source with
      ⟨hpool, hnone⟩ | ⟨hpool, r, -, hsummands⟩
    · rw [if_pos hnone, if_pos hpool]
    · rw [if_neg (by rw [hsummands]; exact List.cons_ne_nil _ _), if_neg hpool]
  calc g.stats.leaves
      = ∑ i ∈ Finset.range g.size, if g.summands i = [] then 1 else 0 :=
      countP_nodes hleaf
    _ = (if s.computed = [] then 1 else 0) +
          ∑ i ∈ Finset.Ico 1 g.size, if g.summands i = [] then 1 else 0 := by
        rw [sum_nodes, hg.computed]
    _ = {v | s.Needed v ∧ v ∈ s.pool}.ncard +
        if s.computed = [] then 1 else 0 := by
        rw [Finset.sum_congr rfl hpool,
          hg.ncard_needed (· ∈ s.pool), Nat.add_comm]

/-- Nodes are shared if they have more than one reference, and the
usage of a node counts these. -/
theorem IsGraphOf.shared (hg : IsGraphOf s g) (hcounted : g.Counted) :
    g.stats.shared = {i | 1 < g.references i}.ncard := by
  have husage : ∀ i < g.size,
      decide ((g.nodes[i]?.getD default).usage > 1) = true ↔
        1 < g.references i := by
    intro i hi
    rw [decide_eq_true_eq, usage_node hi, hcounted i]
    rcases Nat.eq_zero_or_pos i with rfl | hpos
    · rw [hg.references_eq_zero (.inl rfl), if_pos rfl]
      omega
    · rw [if_neg (Nat.ne_of_gt hpos), Nat.add_zero]
  have hset : {i | 1 < g.references i} =
      ((Finset.range g.size).filter fun i => 1 <
        g.references i : Finset Nat) := by
    ext i
    rw [Finset.mem_coe, Finset.mem_filter, Finset.mem_range]
    constructor
    · intro (h : 1 < g.references i)
      refine ⟨Nat.not_le.1 ?_, h⟩
      intro hle
      rw [hg.references_eq_zero (.inr hle)] at h
      exact Nat.not_lt_zero 1 h
    · exact fun h => h.2
  rw [hset, Set.ncard_coe_finset, Finset.card_filter]
  exact countP_nodes husage

/-- The target is among the values if it is needed for itself: the
root has its value without being found by it. -/
theorem IsGraphOf.targetAsValue (hg : IsGraphOf s g) :
    g.stats.targetAsValue = true ↔ s.Needed s.target := by
  have hroot : g.root.value = s.target := by
    rw [← hg.target]
    unfold valueAt root
    rw [Array.getElem?_eq_getElem g.nonempty]
    rfl
  have hcontains : g.stats.targetAsValue = (g.indexOf? s.target).isSome := by
    rw [← hroot]
    exact Std.HashMap.isSome_getElem?_eq_contains.symm
  rw [hcontains, Option.isSome_iff_exists]
  constructor
  · intro ⟨i, hi⟩
    obtain ⟨hpos, hlt, hvalue⟩ := (hg.indexed _ i).1 hi
    rw [← hvalue]
    exact hg.needed hpos hlt
  · intro h
    obtain ⟨i, hi⟩ := hg.exists_node h
    exact ⟨i, (hg.indexed _ i).2 hi⟩

/-- The counters of a graph as the solution tells them. -/
structure CountedAs (s : Solution) (g : Graph) : Prop where
  finite : {v | s.Needed v}.Finite
  nodes : g.stats.nodes = {v | s.Needed v}.ncard + 1
  edges : g.stats.edges = s.computed.length + 2 *
    {v | s.Needed v ∧ v ∉ s.pool}.ncard
  leaves : g.stats.leaves =
    {v | s.Needed v ∧ v ∈ s.pool}.ncard + if s.computed = [] then 1 else 0
  expanded : g.stats.expanded =
    {v | s.Needed v ∧ v ∉ s.pool}.ncard + if s.computed = [] then 0 else 1
  shared : g.stats.shared = {i | 1 < g.references i}.ncard
  targetAsValue : g.stats.targetAsValue = true ↔ s.Needed s.target

/-- All the counters together are numbers of values that are needed. -/
theorem IsGraphOf.countedAs (hg : IsGraphOf s g)
    (hcounted : g.Counted) : s.CountedAs g where
  finite := hg.finite_needed
  nodes := hg.ncard_all
  edges := hg.edges
  leaves := hg.leaves
  expanded := by
    have hsize := hg.size_eq
    have hexpanded : g.stats.expanded = g.size - g.stats.leaves := rfl
    rw [hexpanded, hg.leaves]
    split <;> omega
  shared := hg.shared hcounted
  targetAsValue := hg.targetAsValue

-- ================================================================ outcome

/-- Drawing the graph of any solution, put together by hand or found,
comes to a defect of the walk exactly if a value is needed that
nothing explains, and otherwise to the graph that the solution tells. -/
theorem graph_outcome (s : Solution) :
    ((∃ what, s.graph.outcome = .error (.defect .walk what)) ↔
      ∃ v, s.Needed v ∧ s.Unexplained v) ∧
    ((¬∃ v, s.Needed v ∧ s.Unexplained v) →
      ∃ g, s.graph.outcome = .ok g ∧ s.DrawnAs g ∧ s.CountedAs g) := by
  have hdrawing := drawing s
  have hcounted : ∀ g, s.graph.outcome = .ok g → g.Counted :=
    fun g => counted_of_graph
  generalize s.graph.outcome = r at hdrawing hcounted
  cases hdrawing with
  | @drawn g hg =>
    have hexplained : ¬∃ v, s.Needed v ∧ s.Unexplained v := by
      intro ⟨v, hneeded, hv⟩
      exact hg.not_unexplained hneeded hv
    refine ⟨⟨?_, fun h => absurd h hexplained⟩, ?_⟩
    · intro ⟨what, h⟩
      cases h
    · intro _
      exact ⟨g, rfl, hg.drawnAs (hcounted g rfl), hg.countedAs (hcounted g rfl)⟩
  | @zero v hneeded hzero =>
    have hv : ∃ v, s.Needed v ∧ s.Unexplained v := ⟨v, hneeded, .inl hzero⟩
    exact ⟨⟨fun _ => hv, fun _ => ⟨_, rfl⟩⟩, fun h => absurd hv h⟩
  | @orphan v hneeded _ hforeign hnone =>
    have hv : ∃ v, s.Needed v ∧ s.Unexplained v :=
      ⟨v, hneeded, .inr ⟨fun h => hforeign h.1, hnone⟩⟩
    exact ⟨⟨fun _ => hv, fun _ => ⟨_, rfl⟩⟩, fun h => absurd hv h⟩

end XorSpan.Solution
