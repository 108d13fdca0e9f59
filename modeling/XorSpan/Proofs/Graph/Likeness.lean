/-
Graphs that are alike but for the numbers of their nodes and the order of
children. Whatever is asked of a graph without naming a number has the
same answer in a graph like it: whether there is a cycle, how many ways
lead from one node to another, how often a node is a child.

The nodes of the one graph are taken to those of the other by `place`.
Only nodes have to go somewhere sensible, so every law is about numbers
below the size.
-/
import XorSpan.Proofs.Graph.Parity
import XorSpan.Proofs.Graph.Usage

namespace XorSpan.Graph

open Relation

/-- `place` takes the nodes of `g` to those of `h`, one to one, each
with its value and its children, these in any order. -/
structure Like (g h : Graph) (place : Nat → Nat) : Prop where
  root : place 0 = 0
  lt : ∀ i < g.size, place i < h.size
  inj : ∀ i < g.size, ∀ j < g.size, place i = place j → i = j
  onto : ∀ k < h.size, ∃ i < g.size, place i = k
  value : ∀ i < g.size, h.valueAt (place i) = g.valueAt i
  children : ∀ i < g.size, (h.childrenAt (place i)).toList.Perm
    ((g.childrenAt i).toList.map place)
  range : ∀ i, ∀ c ∈ g.childrenAt i, c < g.size

namespace Like

variable {g h : Graph} {place : Nat → Nat}
    {order order' : List Nat} {i j k : Nat}

-- ================================================================= nodes

/-- All nodes of `h` are met, each once. So sums and counts over all
nodes can be carried over. -/
theorem perm_range (hl : Like g h place) :
    ((List.range g.size).map place).Perm (List.range h.size) := by
  have hnodup : ((List.range g.size).map place).Nodup := by
    refine List.Nodup.map_on ?_ List.nodup_range
    intro i hi j hj heq
    exact hl.inj i (List.mem_range.1 hi) j (List.mem_range.1 hj) heq
  refine (List.perm_ext_iff_of_nodup hnodup List.nodup_range).2 ?_
  intro k
  rw [List.mem_map, List.mem_range]
  constructor
  · intro ⟨i, hi, heq⟩
    rw [← heq]
    exact hl.lt i (List.mem_range.1 hi)
  · intro hk
    obtain ⟨i, hi, heq⟩ := hl.onto k hk
    exact ⟨i, List.mem_range.2 hi, heq⟩

theorem pos_iff (hl : Like g h place) (hi : i < g.size) :
    0 < place i ↔ 0 < i := by
  have hroot : place i = 0 ↔ i = 0 := by
    constructor
    · intro heq
      exact hl.inj i hi 0 g.nonempty (heq.trans hl.root.symm)
    · intro heq
      rw [heq, hl.root]
  omega

/-- Leaves are placed as leaves, and no others are. -/
theorem leafAt_iff (hl : Like g h place) (hi : i < g.size) :
    LeafAt h (place i) ↔ LeafAt g i := by
  have hlength := (hl.children i hi).length_eq
  rw [List.length_map, Array.length_toList, Array.length_toList] at hlength
  unfold LeafAt
  rw [hl.pos_iff hi, ← Array.size_eq_zero_iff,
    ← Array.size_eq_zero_iff, hlength]
  exact and_congr_right fun _ => and_congr_left fun _ =>
    iff_of_true (hl.lt i hi) hi

/-- A list of nodes chosen by what the graphs agree on. It is chosen
in one graph or placed from the other, with the same nodes in it. -/
theorem filter_perm (hl : Like g h place) {p q : Nat → Bool}
    (hpq : ∀ i < g.size, q (place i) = p i) :
    (((List.range g.size).filter p).map place).Perm
      ((List.range h.size).filter q) := by
  have hfilter : (List.range g.size).filter p =
      (List.range g.size).filter (q ∘ place) := by
    refine List.filter_congr ?_
    intro i hi
    exact (hpq i (List.mem_range.1 hi)).symm
  rw [hfilter, ← List.filter_map]
  exact hl.perm_range.filter q

/-- As many nodes pass a test in one graph as pass the same test in
the other. -/
theorem countP_eq (hl : Like g h place) {p q : Nat → Bool}
    (hpq : ∀ i < g.size, q (place i) = p i) :
    (List.range h.size).countP q = (List.range g.size).countP p := by
  rw [List.countP_eq_length_filter, List.countP_eq_length_filter,
    ← (hl.filter_perm hpq).length_eq, List.length_map]

-- ================================================================ cycles

theorem child (hl : Like g h place) (hc : g.Child i j) :
    h.Child (place i) (place j) := by
  have hi : i < g.size := lt_of_mem_childrenAt hc
  refine Array.mem_toList_iff.1 ((hl.children i hi).mem_iff.2 ?_)
  exact List.mem_map_of_mem (Array.mem_toList_iff.2 hc)

/-- A child of a node's counterpart is the counterpart of a child. So
steps down the one graph can be followed in the other. -/
theorem exists_child (hl : Like g h place) (hi : i < g.size)
    (hk : h.Child (place i) k) :
    ∃ j, g.Child i j ∧ place j = k := by
  have hmem := (hl.children i hi).mem_iff.1 (Array.mem_toList_iff.2 hk)
  obtain ⟨j, hj, heq⟩ := List.mem_map.1 hmem
  exact ⟨j, Array.mem_toList_iff.1 hj, heq⟩

/-- What is below a node's place is the place of something below the
node. -/
theorem exists_below (hl : Like g h place) (hi : i < g.size)
    (hk : TransGen h.Child (place i) k) :
    ∃ j, TransGen g.Child i j ∧ place j = k := by
  induction hk with
  | single hc =>
    obtain ⟨j, hj, heq⟩ := hl.exists_child hi hc
    exact ⟨j, .single hj, heq⟩
  | tail _ hc ih =>
    obtain ⟨j, hj, rfl⟩ := ih
    obtain ⟨b, -, hb⟩ := TransGen.tail'_iff.1 hj
    obtain ⟨d, hd, heq⟩ := hl.exists_child (hl.range b j hb) hc
    exact ⟨d, hj.tail hd, heq⟩

theorem cyclic_iff (hl : Like g h place) : h.Cyclic ↔ g.Cyclic := by
  constructor
  · intro ⟨k, hbelow⟩
    obtain ⟨c, hc, -⟩ := TransGen.head'_iff.1 hbelow
    obtain ⟨i, hi, rfl⟩ := hl.onto k (lt_of_mem_childrenAt hc)
    obtain ⟨j, hj, heq⟩ := hl.exists_below hi hbelow
    obtain ⟨b, -, hb⟩ := TransGen.tail'_iff.1 hj
    rw [hl.inj j (hl.range b j hb) i hi heq] at hj
    exact ⟨i, hj⟩
  · intro ⟨i, hbelow⟩
    exact ⟨place i, TransGen.lift place (fun _ _ hc => hl.child hc) _ _ hbelow⟩

-- ================================================================== ways

/-- As many ways lead from a node to another as from its counterpart
to the other's. -/
theorem ncard_ways (hl : Like g h place) (horder : ParentsFirst g order)
    (hi : i ∈ order) (hlt : ∀ i ∈ order, i < g.size) (hj : j < g.size) :
    (h.ways (place i) (place j)).Finite ∧
      (h.ways (place i) (place j)).ncard = (g.ways i j).ncard := by
  induction horder generalizing i with
  | nil => cases hi
  | @cons first rest hfirst hchildren hrest ih =>
    have hlater : ∀ i ∈ rest, i < g.size :=
      fun i hi => hlt i (List.mem_cons_of_mem _ hi)
    by_cases hmem : i ∈ rest
    · exact ih hmem hlater
    · have heq : i = first := (List.mem_cons.1 hi).resolve_right hmem
      subst heq
      have hsize : i < g.size := hlt i hi
      have hfinite : ∀ k ∈ h.childrenAt (place i),
          (h.ways k (place j)).Finite := by
        intro k hk
        obtain ⟨c, hc, hplace⟩ := hl.exists_child hsize hk
        rw [← hplace]
        exact (ih (hchildren c hc) hlater).1
      refine ⟨finite_ways hfinite, ?_⟩
      have hsame : place i = place j ↔ i = j :=
        ⟨hl.inj i hsize j hj, fun heq => by rw [heq]⟩
      have hsum :
          ((h.childrenAt (place i)).toList.map
            fun k => (h.ways k (place j)).ncard).sum =
          ((g.childrenAt i).toList.map fun c => (g.ways c j).ncard).sum := by
        rw [((hl.children i hsize).map _).sum_eq, List.map_map]
        congr 1
        refine List.map_congr_left ?_
        intro c hc
        exact (ih (hchildren c (Array.mem_toList_iff.1 hc)) hlater).2
      rw [Graph.ncard_ways hfinite, hsum, Graph.ncard_ways fun c hc =>
        hrest.finite_ways (hchildren c hc) j]
      simp only [hsame]

/-- Whatever the orders in which parities are handed down, a node and
its counterpart get the same. -/
theorem getD_parityOf (hl : Like g h place) (horder : ParentsFirst g order)
    (hroot : 0 ∈ order)
    (hlt : ∀ i ∈ order, i < g.size) (hi : i ∈ order)
    (horder' : ParentsFirst h order')
    (hroot' : 0 ∈ order') (hlt' : ∀ i ∈ order', i < h.size)
    (hi' : place i ∈ order') :
    (h.parityOf order').getD (place i) false =
      (g.parityOf order).getD i false := by
  have hways := (hl.ncard_ways horder hroot hlt (hlt i hi)).2
  rw [hl.root] at hways
  rw [Bool.eq_iff_iff, odd_iff horder hroot hlt hi,
    odd_iff horder' hroot' hlt' hi', hways]

-- ============================================================ references

theorem count_childrenAt (hl : Like g h place) (hi : i < g.size)
    (hj : j < g.size) :
    (h.childrenAt (place j)).count (place i) = (g.childrenAt j).count i := by
  rw [← Array.count_toList, ← Array.count_toList, (hl.children j hj).count_eq,
    List.count, List.count, List.countP_map]
  refine List.countP_congr ?_
  intro c hc
  have hsize : c < g.size := hl.range j c (Array.mem_toList_iff.1 hc)
  rw [Function.comp_apply, beq_iff_eq, beq_iff_eq]
  exact ⟨hl.inj c hsize i hi, fun heq => by rw [heq]⟩

/-- So every node has as many references as the one in its place. -/
theorem references_eq (hl : Like g h place) (hi : i < g.size) :
    h.references (place i) = g.references i := by
  unfold references
  refine (Finset.sum_nbij place ?_ ?_ ?_ ?_).symm
  · intro j hj
    exact Finset.mem_range.2 (hl.lt j (Finset.mem_range.1 hj))
  · intro j hj k hk heq
    exact hl.inj j (Finset.mem_range.1 hj) k (Finset.mem_range.1 hk) heq
  · intro k hk
    obtain ⟨j, hj, heq⟩ := hl.onto k (Finset.mem_range.1 hk)
    exact ⟨j, Finset.mem_coe.2 (Finset.mem_range.2 hj), heq⟩
  · intro j hj
    exact (hl.count_childrenAt hi (Finset.mem_range.1 hj)).symm

/-- If both count what they are asked for, they have counted the same.
They count references, and these are carried over. -/
theorem usageAt_eq (hl : Like g h place) (hg : g.Counted) (hh : h.Counted)
    (hi : i < g.size) :
    h.usageAt (place i) = g.usageAt i := by
  have hroot : place i = 0 ↔ i = 0 := by
    have hpos := hl.pos_iff hi
    omega
  rw [hg i, hh (place i), hl.references_eq hi]
  simp only [hroot]

end Like

end XorSpan.Graph
