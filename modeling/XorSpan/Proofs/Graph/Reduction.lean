/-
What a reduction comes to. In the graph of a solution whose values add up
to the target and whose records are sound, every node is worth the XOR of
its children, so the leaves that an odd number of ways lead to add up to
the target (`xorSum_oddLeaves`). The leaves are pool members and no two
have the same value. So the check of the result passes, and the only
thing that can keep a graph from being reduced is a cycle
(`reduce_outcome`).

Nothing is assumed of the solution but that its values add up and that
each record was made by `Record.make` and is stored under its result.
-/
import Mathlib.Data.List.Induction
import XorSpan.Graph.Reduction
import XorSpan.Proofs.Graph.Closed
import XorSpan.Proofs.Graph.Parity
import XorSpan.Proofs.Graph.Usage
import XorSpan.Proofs.HexOrder
import XorSpan.Proofs.Sums

namespace XorSpan

open XorSpan.Graph Relation

-- ================================================================ sorting

namespace Reduction

theorem sortByHex_perm (values : List Bytes) : (sortByHex values).Perm values :=
  List.mergeSort_perm _ _

/-- Sorted values stand in the order of their hex texts, which for
values of one length is that of their bytes. -/
theorem sorted_sortByHex (values : List Bytes) :
    (sortByHex values).Pairwise fun a b => a.toHex ≤ b.toHex := by
  have hpairwise : (sortByHex values).Pairwise fun a b =>
      decide (a.toHex ≤ b.toHex) = true := by
    refine List.pairwise_mergeSort ?_ ?_ values
    · intro a b c hab hbc
      rw [decide_eq_true_eq] at hab hbc ⊢
      exact String.le_trans hab hbc
    · intro a b
      rw [Bool.or_eq_true, decide_eq_true_eq, decide_eq_true_eq]
      exact String.le_total _ _
  refine hpairwise.imp ?_
  intro a b h
  exact of_decide_eq_true h

/-- No two values have the same text, so sorting forgets the order. So
a reduction can be compared without asking in which order its leaves
were found. -/
theorem sortByHex_eq_of_perm {values others : List Bytes}
    (h : values.Perm others) :
    sortByHex values = sortByHex others := by
  have hperm : (sortByHex values).Perm (sortByHex others) :=
    ((sortByHex_perm values).trans h).trans (sortByHex_perm others).symm
  refine List.Perm.eq_of_pairwise ?_ (sorted_sortByHex values)
    (sorted_sortByHex others) hperm
  intro a b _ _ hab hba
  exact Bytes.toHex_inj (String.le_antisymm hab hba)

end Reduction

namespace Solution

variable {s : Solution} {g : Graph} {order : List Nat} {i j : Nat} {v : Bytes}

-- ============================================================ the solution

/-- The values of the solution add up to its target, and its records
are what they say, each under its own result. -/
structure Consistent (s : Solution) : Prop where
  sizes : ∀ v ∈ s.computed, v.size = s.target.size
  sum : Bytes.xorAll s.target.size s.computed = s.target
  records : ∀ key r, s.records.get? key = some r →
    r.result = key ∧ Record.make r.left r.right r.result = .ok r

-- ================================================================ worth

theorem IsGraphOf.lt_of_child (hg : IsGraphOf s g) :
    ∀ i, ∀ c ∈ g.childrenAt i, c < g.size :=
  fun i c hc => (hg.range i c hc).2

/-- A leaf is a nonzero member of the pool. The root is not one, even
if it has no children. -/
theorem IsGraphOf.leaf (hg : IsGraphOf s g) (hi : LeafAt g i) :
    g.valueAt i ∈ s.pool ∧ (g.valueAt i).isZero = false := by
  have hexplained : Explained s g i := hg.explained i hi.1 hi.2.1
  refine ⟨?_, hexplained.nonzero⟩
  rcases hexplained.source with ⟨hpool, -⟩ | ⟨-, r, -, hsummands⟩
  · exact hpool
  · rw [childrenAt_eq_empty_iff.1 hi.2.2] at hsummands
    cases hsummands

/-- All nodes are as long as the target. It is so for the values
computed, and handed down by the records. -/
theorem IsGraphOf.size_valueAt (hg : IsGraphOf s g) (hs : Consistent s)
    (hi : i < g.size) :
    (g.valueAt i).size = s.target.size := by
  have hreached := hg.reached i hi
  clear hi
  induction hreached with
  | refl => rw [hg.target]
  | @tail i c _ hc ih =>
    rcases Nat.eq_zero_or_pos i with rfl | hpos
    · exact hs.sizes _ (hg.valueAt_of_root hc)
    · obtain ⟨-, r, hr, hoperand⟩ := hg.valueAt_of_child hpos hc
      obtain ⟨hkey, hmake⟩ := hs.records _ r hr
      obtain ⟨hleft, hright, -, -⟩ := Record.make_eq_ok_iff.1 hmake
      rw [hkey] at hright
      rcases hoperand with heq | heq
      · rw [heq, hleft, hright, ih]
      · rw [heq, hright, ih]

/-- Every node is worth the XOR of its children, unless it is a leaf.
Leaves are worth themselves and have no children, so one equation does
for all nodes. -/
theorem IsGraphOf.toWord_valueAt (hg : IsGraphOf s g) (hs : Consistent s)
    (hi : i < g.size) :
    (g.valueAt i).toWord = (if LeafAt g i then (g.valueAt i).toWord else 0) ^^^
      xorSum ((g.childrenAt i).toList.map fun c => (g.valueAt c).toWord) := by
  have hmap : ((g.childrenAt i).toList.map fun c => (g.valueAt c).toWord) =
      (g.summands i).map Bytes.toWord := by
    unfold summands
    rw [List.map_map]
    rfl
  rw [hmap]
  rcases Nat.eq_zero_or_pos i with rfl | hpos
  · rw [if_neg (fun h => Nat.lt_irrefl 0 h.1), Nat.zero_xor,
      hg.computed, hg.target, ← Bytes.toWord_xorAll hs.sizes, hs.sum]
  · rcases (hg.explained i hpos hi).source with
      ⟨-, hnone⟩ | ⟨-, r, hr, hsummands⟩
    · rw [if_pos ⟨hpos, hi, childrenAt_eq_empty_iff.2 hnone⟩, hnone,
        List.map_nil, xorSum_nil, Nat.xor_zero]
    · obtain ⟨hkey, hmake⟩ := hs.records _ r hr
      obtain ⟨hleft, -, hsum, -⟩ := Record.make_eq_ok_iff.1 hmake
      have hinner : ¬LeafAt g i := by
        intro hleaf
        rw [childrenAt_eq_empty_iff.1 hleaf.2.2] at hsummands
        cases hsummands
      rw [if_neg hinner, hsummands, Nat.zero_xor, List.map_cons, xorSum_cons,
        List.map_singleton, xorSum_cons, xorSum_nil, Nat.xor_zero,
        ← Bytes.toWord_xor hleft, hsum, hkey]

-- ============================================================ odd leaves

/-- The leaves that are marked, in the order of their numbers. -/
def oddLeaves (g : Graph) (parity : Array Bool) : List Nat :=
  (List.range g.size).filter fun i => parity.getD i false && LeafAt g i

/-- A number is among the marked leaves if its node is a leaf and its
mark is set. -/
theorem mem_oddLeaves {parity : Array Bool} :
    i ∈ oddLeaves g parity ↔ LeafAt g i ∧ parity.getD i false = true := by
  unfold oddLeaves
  rw [List.mem_filter, List.mem_range, Bool.and_eq_true, decide_eq_true_eq,
    and_comm (b := _ ∧ _)]
  exact ⟨fun h => h.1.symm, fun h => ⟨h.symm, h.1.2.1⟩⟩

/-- Every node of a graph that was built is reached from the root, so
an order of what is reached is one of all nodes. -/
theorem IsGraphOf.mem_order (hg : IsGraphOf s g)
    (hmem : ∀ i, i ∈ order ↔ ReflTransGen g.Child 0 i) :
    i ∈ order ↔ i < g.size := by
  rw [hmem]
  constructor
  · intro h
    rcases ReflTransGen.cases_tail h with rfl | ⟨k, -, hk⟩
    · exact g.nonempty
    · exact (hg.range k i hk).2
  · exact hg.reached i

/-- A graph whose nodes can be put in order has no cycle. A node below
itself would stand behind itself in the order. -/
theorem IsGraphOf.not_cyclic_of_order (hg : IsGraphOf s g)
    (horder : ParentsFirst g order)
    (hmem : ∀ i, i ∈ order ↔ ReflTransGen g.Child 0 i) : ¬g.Cyclic := by
  intro ⟨i, hbelow⟩
  obtain ⟨c, hc, -⟩ := TransGen.head'_iff.1 hbelow
  have hi : i ∈ order := (hg.mem_order hmem).2 (lt_of_mem_childrenAt hc)
  exact horder.not_below_self hi hbelow

/-- The leaves that are marked in the end add up to the target. The
root is worth the target, and handing marks down keeps what the marked
nodes are worth. -/
theorem IsGraphOf.xorSum_oddLeaves (hg : IsGraphOf s g) (hs : Consistent s)
    (horder : ParentsFirst g order)
    (hmem : ∀ i, i ∈ order ↔ ReflTransGen g.Child 0 i) :
    xorSum ((oddLeaves g (g.parityOf order)).map
      fun i => (g.valueAt i).toWord) =
      s.target.toWord := by
  have hlt : ∀ i ∈ order, i < g.size := fun i hi => (hg.mem_order hmem).1 hi
  have hroot : 0 ∈ order := (hmem 0).2 .refl
  have hworth := markedSum_parityOf horder hroot hlt fun i hi =>
    hg.toWord_valueAt hs (hlt i hi)
  rw [hg.target] at hworth
  have hperm : order.Perm (List.range g.size) := by
    refine (List.perm_ext_iff_of_nodup horder.nodup List.nodup_range).2 ?_
    intro i
    rw [hg.mem_order hmem, List.mem_range]
  have hrange : ∀ marked own, markedSum marked own order =
      markedSum marked own (List.range g.size) := by
    intro marked own
    unfold markedSum
    exact xorSum_perm (hperm.map _)
  rw [hrange, markedSum_filter
    (fun i _ hleaf => if_neg (of_decide_eq_false hleaf)),
    markedSum_eq_filter, List.filter_filter] at hworth
  rw [← hworth]
  unfold oddLeaves
  congr 1
  refine List.map_congr_left ?_
  intro i hi
  rw [List.mem_filter, Bool.and_eq_true, decide_eq_true_eq] at hi
  rw [if_pos hi.2.2]

/-- No two leaves have the same value. Nodes below the root are told
apart by their values. -/
theorem IsGraphOf.nodup_oddLeaves (hg : IsGraphOf s g) (parity : Array Bool) :
    ((oddLeaves g parity).map g.valueAt).Nodup := by
  refine List.Nodup.map_on ?_ (List.nodup_range.filter _)
  intro i hi j hj heq
  obtain ⟨⟨hposi, hlti, -⟩, -⟩ := mem_oddLeaves.1 hi
  obtain ⟨⟨hposj, hltj, -⟩, -⟩ := mem_oddLeaves.1 hj
  exact hg.indexed.inj ⟨hposi, hlti⟩ ⟨hposj, hltj⟩ heq

-- ================================================================== scan

/-- Reading off the nodes with their numbers is reading off the
numbers. So a loop over the array becomes one over a range. -/
theorem zipIdx_nodes (g : Graph) :
    g.nodes.toList.zipIdx = (List.range g.size).map fun i =>
      (g.nodes[i]?.getD default, i) := by
  apply List.ext_getElem
  · rw [List.length_zipIdx, List.length_map, List.length_range]
    rfl
  · intro i hi hi'
    have hlt : i < g.nodes.size := by simpa using hi
    simp [hlt]

/-- A node that is there is read off with the value it has in the
graph. -/
theorem value_node (hi : i < g.size) :
    (g.nodes[i]?.getD default).value = g.valueAt i := by
  obtain ⟨node, hnode⟩ : ∃ node, g.nodes[i]? = some node :=
    ⟨_, Array.getElem?_eq_getElem hi⟩
  unfold valueAt
  rw [hnode]
  rfl

/-- It is a leaf if it has no children. The root is one as well then,
and the scan leaves it out by its number. -/
theorem isLeaf_node (hi : i < g.size) :
    (g.nodes[i]?.getD default).isLeaf = true ↔ g.childrenAt i = #[] := by
  obtain ⟨node, hnode⟩ : ∃ node, g.nodes[i]? = some node :=
    ⟨_, Array.getElem?_eq_getElem hi⟩
  unfold childrenAt Node.isLeaf
  rw [hnode]
  exact Array.isEmpty_iff

theorem usage_node (hi : i < g.size) :
    (g.nodes[i]?.getD default).usage = g.usageAt i := by
  unfold usageAt
  rw [Array.getElem?_eq_getElem hi]
  rfl

/-- What is counted in a scan of these nodes. -/
def tallied (g : Graph) (parity : Array Bool) (places : List Nat) :
    ReductionStats where
  leaves := places.countP (LeafAt g ·)
  oddLeaves := places.countP fun i => parity.getD i false && LeafAt g i
  mismatches := places.countP fun i =>
    LeafAt g i && decide (g.usageAt i % 2 = 1) != parity.getD i false

/-- One more node adds to the counts what it is: nothing if it is no
leaf, else a leaf, an odd one if it is marked, and a mismatch if its
references say otherwise than its mark. -/
theorem tallied_concat (g : Graph) (parity : Array Bool)
    (places : List Nat) (i : Nat) :
    tallied g parity (places ++ [i]) =
      if LeafAt g i then
        { tallied g parity places with
          leaves := (tallied g parity places).leaves + 1
          oddLeaves := (tallied g parity places).oddLeaves +
            (parity.getD i false).toNat
          mismatches := (tallied g parity places).mismatches +
            (decide (g.usageAt i % 2 = 1) != parity.getD i false).toNat }
      else tallied g parity places := by
  unfold tallied
  simp only [List.countP_append, List.countP_singleton]
  by_cases hleaf : LeafAt g i
  · simp only [hleaf, decide_true, Bool.and_true, Bool.true_and,
      if_true, Bool.toNat, Bool.cond_eq_ite]
  · simp only [hleaf, decide_false, Bool.and_false, Bool.false_and,
      Bool.false_eq_true, if_false, Nat.add_zero]

/-- One node is scanned. A leaf is a nonzero pool member, so if it is
marked its value is taken. -/
theorem IsGraphOf.scan_node (hg : IsGraphOf s g) (hi : i < g.size)
    (r : Reduction) (odd : Bool) :
    Reduction.scan s.base r i (g.nodes[i]?.getD default) odd =
      if LeafAt g i then
        ⟨if odd then g.valueAt i :: r.values else r.values,
          { r.stats with
            leaves := r.stats.leaves + 1
            oddLeaves := r.stats.oddLeaves + odd.toNat
            mismatches := r.stats.mismatches +
              (decide (g.usageAt i % 2 = 1) != odd).toNat }⟩
      else r := by
  have hskip : (i = 0 ∨ (!(g.nodes[i]?.getD default).isLeaf) = true) ↔
      ¬LeafAt g i := by
    rw [Bool.not_eq_true', ← Bool.not_eq_true, isLeaf_node hi,
      ← Nat.le_zero, ← Nat.not_lt, ← not_and_or]
    exact not_congr (and_congr_right fun _ => (and_iff_right hi).symm)
  unfold Reduction.scan
  by_cases hleaf : LeafAt g i
  · obtain ⟨hpool, hzero⟩ := hg.leaf hleaf
    rw [if_neg (fun h => hskip.1 h hleaf), if_pos hleaf, value_node hi,
      usage_node hi, hzero, contains_base.2 ⟨hpool, hzero⟩]
    cases odd <;> rfl
  · rw [if_pos (hskip.2 hleaf), if_neg hleaf]

/-- A scan of nodes takes the values of the marked leaves, and counts.
The induction is from the end of the list, as values are added at the
end. -/
theorem IsGraphOf.foldl_scan (hg : IsGraphOf s g) (parity : Array Bool)
    {places : List Nat} (hplaces : ∀ i ∈ places, i < g.size) :
    places.foldl (fun r i =>
        Reduction.scan s.base r i (g.nodes[i]?.getD default)
          (parity.getD i false))
      (⟨[], {}⟩ : Reduction) =
    ⟨((places.filter fun i => parity.getD i false &&
      LeafAt g i).map g.valueAt).reverse,
      tallied g parity places⟩ := by
  induction places using List.reverseRecOn with
  | nil => rfl
  | append_singleton places i ih =>
    have hi : i < g.size := hplaces i
      (List.mem_append_right _ (List.mem_singleton_self i))
    rw [List.foldl_append, ih fun j hj => hplaces j (List.mem_append_left _ hj),
      List.foldl_cons, List.foldl_nil, hg.scan_node hi, tallied_concat,
      List.filter_append, List.filter_cons, List.filter_nil]
    by_cases hleaf : LeafAt g i
    · cases hodd : parity.getD i false with
      | true =>
        rw [if_pos hleaf, if_pos hleaf, if_pos rfl, if_pos (by simp [hleaf]),
          List.map_append, List.reverse_append]
        rfl
      | false =>
        rw [if_pos hleaf, if_pos hleaf, if_neg Bool.false_ne_true,
          if_neg (by simp), List.append_nil]
    · rw [if_neg hleaf, if_neg hleaf, if_neg (by simp [hleaf]), List.append_nil]

/-- The reduction that these marks give. -/
def reducedBy (g : Graph) (parity : Array Bool) : Reduction where
  values := Reduction.sortByHex ((oddLeaves g parity).map g.valueAt)
  stats :=
    { tallied g parity (List.range g.size) with
      base :=
        (Reduction.sortByHex ((oddLeaves g parity).map g.valueAt)).length }

/-- The values of a reduction are those of the marked leaves, in
another order. -/
theorem perm_reducedBy (g : Graph) (parity : Array Bool) :
    (reducedBy g parity).values.Perm ((oddLeaves g parity).map g.valueAt) :=
  Reduction.sortByHex_perm _

/-- So a value is among them if some marked leaf has it. -/
theorem mem_reducedBy {parity : Array Bool} : v ∈ (reducedBy g parity).values ↔
    ∃ i, LeafAt g i ∧ g.valueAt i = v ∧ parity.getD i false = true := by
  rw [(perm_reducedBy g parity).mem_iff, List.mem_map]
  refine exists_congr ?_
  intro i
  rw [mem_oddLeaves, and_assoc, and_comm (b := g.valueAt i = v)]

/-- And it is there once, since no two leaves have the same value. -/
theorem IsGraphOf.nodup_reducedBy (hg : IsGraphOf s g) (parity : Array Bool) :
    (reducedBy g parity).values.Nodup :=
  (perm_reducedBy g parity).nodup_iff.2 (hg.nodup_oddLeaves parity)

/-- If the nodes can be put in order, only the check of the sum is
left to fail. -/
theorem IsGraphOf.scripted_reduce_of_order (hg : IsGraphOf s g)
    (horder : Job.Scripted g.order (.ok order)) :
    Job.Scripted (g.reduce s)
      ((checkSum .reduced s.target (reducedBy g (g.parityOf order)).values).map
        fun _ => reducedBy g (g.parityOf order)) := by
  have hscan := Job.scripted_visit_ok .scan (fun r p =>
    Reduction.scan s.base r p.2 p.1 ((g.parityOf order).getD p.2 false))
      (⟨[], {}⟩ : Reduction)
    g.nodes.toList.zipIdx
  rw [zipIdx_nodes, List.foldl_map,
    hg.foldl_scan _ fun i hi => List.mem_range.1 hi] at hscan
  unfold reduce
  refine (scripted_parity horder).bind ?_
  rw [zipIdx_nodes]
  refine hscan.bind ?_
  unfold Reduction.close
  rw [List.reverse_reverse]
  show Job.Scripted (Job.ofExcept (checkSum .reduced s.target
    (reducedBy g (g.parityOf order)).values) >>= _) _
  have hcheck := Job.scripted_ofExcept
    (checkSum .reduced s.target (reducedBy g (g.parityOf order)).values)
  generalize checkSum .reduced s.target
    (reducedBy g (g.parityOf order)).values = sum at hcheck
  cases sum with
  | error fault => exact hcheck.bind_error
  | ok _ => exact hcheck.bind ((Job.scripted_note _).bind (Job.scripted_pure _))

/-- If they cannot, nothing is scanned. The defect that was met in
ordering is what the reduction comes to. -/
theorem scripted_reduce_of_disorder {fault : Fault}
    (horder : Job.Scripted g.order (.error fault)) :
    Job.Scripted (g.reduce s) (.error fault) := by
  have hparity : Job.Scripted g.parity (.error fault) := by
    unfold parity
    exact horder.bind_error
  unfold reduce
  exact hparity.bind_error

-- ================================================================ outcome

/-- The values that a graph reduces to: those of the leaves below the
root that an odd number of ways lead to. -/
structure IsReductionOf (s : Solution) (g : Graph)
    (values : List Bytes) : Prop where
  mem : ∀ v, v ∈ values ↔
    ∃ i, LeafAt g i ∧ g.valueAt i = v ∧ Odd (g.ways 0 i).ncard
  pool : ∀ v ∈ values, v ∈ s.pool ∧ v.isZero = false
  nodup : values.Nodup
  sorted : values.Pairwise fun a b => a.toHex ≤ b.toHex
  sizes : ∀ v ∈ values, v.size = s.target.size
  sum : Bytes.xorAll s.target.size values = s.target

/-- With the marks of a parents-first order the values are a
reduction. The marks count the ways to each leaf, and as every inner
node is worth what its children are, the worth of the root comes down
to the leaves that are marked. -/
theorem isReductionOf_reducedBy (hg : IsGraphOf s g) (hs : Consistent s)
    (horder : ParentsFirst g order)
    (hmem : ∀ i, i ∈ order ↔ ReflTransGen g.Child 0 i) :
    IsReductionOf s g (reducedBy g (g.parityOf order)).values := by
  have hvalues : ∀ v, v ∈ (reducedBy g (g.parityOf order)).values ↔
      ∃ i, LeafAt g i ∧ g.valueAt i = v ∧ Odd (g.ways 0 i).ncard := by
    intro v
    rw [mem_reducedBy]
    refine exists_congr ?_
    intro i
    refine and_congr_right ?_
    intro hleaf
    have hi : i ∈ order := (hg.mem_order hmem).2 hleaf.2.1
    rw [odd_iff horder ((hmem 0).2 .refl)
      (fun i hi => (hg.mem_order hmem).1 hi) hi]
  have hsizes : ∀ v ∈ (reducedBy g (g.parityOf order)).values,
      v.size = s.target.size := by
    intro v hv
    obtain ⟨i, hleaf, rfl, -⟩ := (hvalues v).1 hv
    exact hg.size_valueAt hs hleaf.2.1
  refine ⟨hvalues, ?_, hg.nodup_reducedBy _,
    Reduction.sorted_sortByHex _, hsizes, ?_⟩
  · intro v hv
    obtain ⟨i, hleaf, rfl, -⟩ := (hvalues v).1 hv
    exact hg.leaf hleaf
  · refine Bytes.eq_of_toWord_eq (Bytes.size_xorAll hsizes) ?_
    rw [Bytes.toWord_xorAll hsizes,
      xorSum_perm ((perm_reducedBy g _).map _), List.map_map]
    exact hg.xorSum_oddLeaves hs horder hmem

/-- So the check of the sum passes. The values are as long as the
target and add up to it, which is all that is asked. -/
theorem checkSum_reducedBy (hg : IsGraphOf s g) (hs : Consistent s)
    (horder : ParentsFirst g order)
    (hmem : ∀ i, i ∈ order ↔ ReflTransGen g.Child 0 i) :
    checkSum .reduced s.target (reducedBy g (g.parityOf order)).values =
      .ok () := by
  have hreduction := isReductionOf_reducedBy hg hs horder hmem
  exact checkSum_eq_ok_iff.2 ⟨hreduction.sizes, hreduction.sum⟩

/-- What reducing the graph of a consistent solution comes to. -/
inductive Reduced (s : Solution) (g : Graph) :
    Except Fault Reduction → Prop where
  | exact {r : Reduction} (acyclic : ¬g.Cyclic)
      (finite : ∀ i, (g.ways 0 i).Finite)
      (values : IsReductionOf s g r.values) : Reduced s g (.ok r)
  | cyclic {i : Nat} (below : TransGen g.Child i i) :
      Reduced s g (.error (.defect .order (.cycle (g.valueAt i))))

/-- The reduction of a graph that was built is scripted, and it comes
through or finds a cycle. The check of the sum is made as well, and
never fails. -/
theorem scripted_reduce (hg : IsGraphOf s g) (hs : Consistent s) :
    ∃ r, Job.Scripted (g.reduce s) r ∧ Reduced s g r := by
  obtain ⟨r, horder, hordering⟩ := scripted_order hg.lt_of_child
  cases hordering with
  | cyclic hbelow =>
    exact ⟨_, scripted_reduce_of_disorder horder, .cyclic hbelow⟩
  | @listed order hfirst hmem =>
    refine ⟨_, hg.scripted_reduce_of_order horder, ?_⟩
    rw [checkSum_reducedBy hg hs hfirst hmem]
    exact .exact (hg.not_cyclic_of_order hfirst hmem)
      (hfirst.finite_ways ((hmem 0).2 .refl))
        (isReductionOf_reducedBy hg hs hfirst hmem)

/-- So is its outcome, whoever listens. -/
theorem reduced (hg : IsGraphOf s g) (hs : Consistent s) :
    Reduced s g (g.reduce s).outcome := by
  obtain ⟨r, hscript, hreduced⟩ := scripted_reduce hg hs
  rw [hscript.outcome_eq]
  exact hreduced

/-- A graph that came of an expansion is the graph of its solution.
The other outcome of an expansion is a defect. -/
theorem isGraphOf_of_graph (h : s.graph.outcome = .ok g) : IsGraphOf s g := by
  have hdrawing := drawing s
  rw [h] at hdrawing
  cases hdrawing with
  | drawn graph => exact graph

/-- Reducing the graph of a consistent solution, put together by hand
or found: if the graph has no cycle, its odd leaves, which add up to
the target; if it has one, a defect of the order, and nothing else. -/
theorem reduce_outcome (hs : Consistent s) (hgraph : s.graph.outcome = .ok g) :
    (¬g.Cyclic → (∀ i, (g.ways 0 i).Finite) ∧
      ∃ r, (g.reduce s).outcome = .ok r ∧ IsReductionOf s g r.values) ∧
    (g.Cyclic → ∃ v, (g.reduce s).outcome =
      .error (.defect .order (.cycle v))) := by
  have hreduced := reduced (isGraphOf_of_graph hgraph) hs
  generalize (g.reduce s).outcome = r at hreduced
  cases hreduced with
  | exact acyclic finite values =>
    constructor
    · intro _
      exact ⟨finite, _, rfl, values⟩
    · intro hcyclic
      exact absurd hcyclic acyclic
  | cyclic below =>
    constructor
    · intro hacyclic
      exact absurd ⟨_, below⟩ hacyclic
    · intro _
      exact ⟨_, rfl⟩

/-- A solution by hand in which `2` is needed twice, by itself and for
`1`, and so in the end not at all. -/
def sharing : Solution where
  target := #[3]
  pool := [#[3], #[2]]
  computed := [#[1], #[2]]
  records := Table.empty.insert #[1] ⟨#[3], #[2], #[1]⟩

/-- The one record of the example explains its key by two members of
the pool. -/
theorem closed_sharing : Records.Closed sharing.pool sharing.records := by
  refine Records.closed_empty.insert ?_
  refine ⟨?_, rfl, rfl, rfl, ?_, ?_, ⟨6, 7, ?_⟩, .inl ?_,
    .inl ?_⟩ <;> decide +kernel

/-- The example is consistent: its two values add up to the target,
and its record is the one that is made of its operands. -/
theorem consistent_sharing : Consistent sharing where
  sizes := by decide
  sum := by decide +kernel
  records key r hr := (closed_sharing key r hr).make

theorem exists_graph_sharing :
    ∃ g, Job.Scripted sharing.graph (.ok g) ∧ IsGraphOf sharing g := by
  refine exists_graph_of_closed closed_sharing ?_
  intro v hv
  rcases List.mem_cons.1 hv with rfl | hv
  · exact .inr ((Table.isSome_get?_insert ..).2 (.inl rfl))
  · rw [List.mem_singleton.1 hv]
    exact .inl (by decide +kernel)

theorem reduce_outcome_sharing : ∃ g r, sharing.graph.outcome = .ok g ∧
    (g.reduce sharing).outcome = .ok r ∧ IsReductionOf sharing g r.values := by
  obtain ⟨g, hgraph, hg⟩ := exists_graph_sharing
  obtain ⟨-, r, hreduce, hvalues⟩ :=
    (reduce_outcome consistent_sharing hgraph.outcome_eq).1
      (hg.acyclic closed_sharing)
  exact ⟨g, r, hgraph.outcome_eq, hreduce, hvalues⟩

end Solution

end XorSpan
