/-
Usage and ways. A node counts how often its value was asked for, which is
how often it is a child; the ways to it multiply below a node that is
shared. If nothing but leaves is shared, the two come to the same
(`ncard_ways_eq_usageAt`), and a graph could be reduced by its usage
counts alone (`reduce_unshared`).

A way to a node comes last through one of its parents, so the ways to it
are the ways to its parents, each as often as it is that parent's child
(`ParentsFirst.ncard_ways_last`). A parent that is asked for once has one
way to it, and what is left of the sum is the number of references.
-/
import XorSpan.Proofs.Graph.Census
import XorSpan.Proofs.Graph.Traversal

namespace XorSpan

open XorSpan.Graph Relation

variable {s : Solution} {g : Graph} {order children : List Nat} {i j : Nat}

namespace Graph

-- ============================================================== last turns

/-- What holds of the ways from every child, added up over the
children. -/
theorem sum_ways_children {weight : Nat → Nat} {n : Nat}
    (h : ∀ c ∈ children, (g.ways c j).ncard = (if c = j then 1 else 0) +
      ∑ k ∈ Finset.range n, (g.ways c k).ncard * weight k) :
    (children.map fun c => (g.ways c j).ncard).sum =
      children.count j + ∑ k ∈ Finset.range n,
        (children.map fun c => (g.ways c k).ncard).sum * weight k := by
  induction children with
  | nil => simp
  | cons c children ih =>
    obtain ⟨hc, hchildren⟩ := List.forall_mem_cons.1 h
    simp only [List.map_cons, List.sum_cons, List.count_cons, add_mul,
      Finset.sum_add_distrib, beq_iff_eq]
    rw [hc, ih hchildren]
    omega

/-- A way from `i` to `j` is empty, or it leads to a parent of `j` and
turns to `j` from there. -/
theorem ParentsFirst.ncard_ways_last (horder : ParentsFirst g order)
    (hlt : ∀ i ∈ order, i < g.size) (hi : i ∈ order) (j : Nat) :
    (g.ways i j).ncard = (if i = j then 1 else 0) +
      ∑ k ∈ Finset.range g.size,
      (g.ways i k).ncard * (g.childrenAt k).count j := by
  induction horder generalizing i with
  | nil => cases hi
  | @cons first rest hfirst hchildren hrest ih =>
    have hlater : ∀ i ∈ rest, i < g.size :=
      fun i hi => hlt i (List.mem_cons_of_mem _ hi)
    by_cases hmem : i ∈ rest
    · exact ih hlater hmem
    · have heq : i = first := (List.mem_cons.1 hi).resolve_right hmem
      subst heq
      have hfirstTurn : ∀ k, (g.ways i k).ncard = (if i = k then 1 else 0) +
          ((g.childrenAt i).toList.map fun c => (g.ways c k).ncard).sum := by
        intro k
        exact ncard_ways fun c hc => hrest.finite_ways (hchildren c hc) k
      have hsum := sum_ways_children fun c hc =>
        ih hlater (hchildren c (Array.mem_toList_iff.1 hc))
      have hown : ∑ k ∈ Finset.range g.size,
          (if i = k then 1 else 0) * (g.childrenAt k).count j =
          (g.childrenAt i).count j := by
        simp only [ite_mul, one_mul, zero_mul]
        rw [Finset.sum_ite_eq, if_pos (Finset.mem_range.2 (hlt i hi))]
      rw [Array.count_toList] at hsum
      rw [hfirstTurn j, hsum]
      simp only [hfirstTurn, add_mul, Finset.sum_add_distrib]
      rw [hown]

-- ============================================================ unshared nodes

/-- Below the root only leaves were asked for more than once. -/
def Unshared (g : Graph) : Prop :=
  ∀ i, 0 < i → i < g.size → g.childrenAt i ≠ #[] → g.usageAt i = 1

/-- If nothing but leaves is shared, as many ways lead to a node as it
was asked for. -/
theorem ncard_ways_eq_usageAt (horder : ParentsFirst g order)
    (hmem : ∀ i, i ∈ order ↔ ReflTransGen g.Child 0 i)
    (hsize : ∀ i, i ∈ order ↔ i < g.size)
    (hcounted : g.Counted) (hunshared : g.Unshared) (hpos : 0 < i)
    (hi : i < g.size) :
    (g.ways 0 i).ncard = g.usageAt i := by
  induction hn : order.idxOf i using Nat.strong_induction_on generalizing i with
  | _ n ih =>
    subst hn
    have hparent : ∀ k < g.size, g.Child k i → (g.ways 0 k).ncard = 1 := by
      intro k hk hchild
      rcases Nat.eq_zero_or_pos k with rfl | hposk
      · rw [ways_root (not_cyclicBelowRoot horder hmem), Set.ncard_singleton]
      · have hinner : g.childrenAt k ≠ #[] := by
          intro hnone
          rw [Child, hnone] at hchild
          exact Array.not_mem_empty i hchild
        rw [ih _ (horder.idxOf_lt ((hsize k).2 hk) hchild) hposk hk rfl]
        exact hunshared k hposk hk hinner
    have hroot : 0 ∈ order := (hmem 0).2 .refl
    rw [horder.ncard_ways_last (fun k => (hsize k).1) hroot,
      if_neg (Nat.ne_of_lt hpos), zero_add, hcounted i,
      if_neg (Nat.ne_of_gt hpos), add_zero]
    unfold references
    refine Finset.sum_congr rfl ?_
    intro k hk
    by_cases hchild : g.Child k i
    · rw [hparent k (Finset.mem_range.1 hk) hchild, one_mul]
    · rw [Array.count_eq_zero.2 hchild, mul_zero]

end Graph

namespace Solution

variable {parity : Array Bool} {v : Bytes}

-- ================================================================ places

/-- A node is a child as often as its value is a summand. Nodes and
values are in one-to-one correspondence below the root. -/
theorem IsGraphOf.count_childrenAt (hg : IsGraphOf s g) (hpos : 0 < i)
    (hi : i < g.size) (j : Nat) :
    (g.childrenAt j).count i = (g.summands j).count (g.valueAt i) := by
  unfold summands
  rw [← Array.count_toList, List.count, List.count, List.countP_map]
  refine List.countP_congr ?_
  intro c hc
  obtain ⟨hposc, hltc⟩ := hg.range j c (Array.mem_toList_iff.1 hc)
  rw [Function.comp_apply, beq_iff_eq, beq_iff_eq]
  exact ⟨fun heq => by rw [heq], hg.indexed.inj ⟨hposc, hltc⟩ ⟨hpos, hi⟩⟩

-- ============================================================= reductions

/-- A mark that says whether a number is odd is that number modulo
two. -/
theorem toNat_of_odd_iff {odd : Bool} {n : Nat} (h : odd = true ↔ Odd n) :
    odd.toNat = n % 2 := by
  rw [Nat.odd_iff] at h
  cases odd with
  | true => exact (h.1 rfl).symm
  | false =>
    have heven := mt h.2 Bool.false_ne_true
    rw [Bool.toNat_false]
    omega

/-- The reduction that the usage counts give: it lists the leaves that
were asked for an odd number of times, and no count disagrees with the
ways. -/
structure ReducedByUsage (g : Graph) (r : Reduction) : Prop where
  mismatches : r.stats.mismatches = 0
  mem : ∀ v, v ∈ r.values ↔
    ∃ i, LeafAt g i ∧ g.valueAt i = v ∧ Odd (g.usageAt i)
  nodup : r.values.Nodup
  sorted : r.values.Pairwise fun a b => a.toHex ≤ b.toHex

/-- Marks that agree with the usage counts make that reduction. So
counting references does as well as counting ways, where it counts the
same. -/
theorem IsGraphOf.reducedByUsage (hg : IsGraphOf s g)
    (hparity : ∀ i, LeafAt g i →
      (parity.getD i false = true ↔ Odd (g.usageAt i))) :
    ReducedByUsage g (reducedBy g parity) where
  mismatches := by
    refine List.countP_eq_zero.2 ?_
    intro i _ hmismatch
    rw [Bool.and_eq_true, decide_eq_true_eq, bne_iff_ne] at hmismatch
    obtain ⟨hleaf, hne⟩ := hmismatch
    refine hne ?_
    rw [Bool.eq_iff_iff, decide_eq_true_eq, hparity i hleaf, Nat.odd_iff]
  mem v := by
    rw [mem_reducedBy]
    refine exists_congr ?_
    intro i
    refine and_congr_right ?_
    intro hleaf
    rw [hparity i hleaf]
  nodup := hg.nodup_reducedBy parity
  sorted := Reduction.sorted_sortByHex _

/-- A graph without a cycle in which nothing but leaves is shared: the
parity found for a leaf is that of its usage count, in fact as many
ways lead to any node as it was asked for. So the reduction comes to
the leaves with an odd usage count, unless these do not add up to the
target; those of a consistent solution do. -/
theorem reduce_unshared (hgraph : s.graph.outcome = .ok g)
    (hacyclic : ¬g.Cyclic) (hunshared : g.Unshared) :
    (∃ parity, g.parity.outcome = .ok parity ∧ parity.size = g.size ∧
      ∀ i, LeafAt g i → (parity.getD i false).toNat = g.usageAt i % 2) ∧
    (∀ i, 0 < i → i < g.size →
      (g.ways 0 i).Finite ∧ (g.ways 0 i).ncard = g.usageAt i) ∧
    ∃ r, ReducedByUsage g r ∧
      ((∀ v ∈ r.values, v.size = s.target.size) ∧
        Bytes.xorAll s.target.size r.values = s.target →
        (g.reduce s).outcome = .ok r) ∧
      (¬((∀ v ∈ r.values, v.size = s.target.size) ∧
        Bytes.xorAll s.target.size r.values = s.target) →
          ∃ what, (g.reduce s).outcome = .error (.defect .reduced what)) ∧
      (Consistent s → (g.reduce s).outcome = .ok r) := by
  have hg : IsGraphOf s g := isGraphOf_of_graph hgraph
  obtain ⟨_, horder, hordering⟩ := scripted_order hg.lt_of_child
  cases hordering with
  | cyclic below => exact absurd ⟨_, below⟩ hacyclic
  | @listed order hfirst hmem =>
    have hroot : 0 ∈ order := (hmem 0).2 .refl
    have hsize : ∀ i, i ∈ order ↔ i < g.size := fun i => hg.mem_order hmem
    have hways : ∀ i, 0 < i → i < g.size → (g.ways 0 i).ncard = g.usageAt i :=
      fun i => ncard_ways_eq_usageAt hfirst hmem hsize
        (counted_of_graph hgraph) hunshared
    have hparity : ∀ i, LeafAt g i →
        ((g.parityOf order).getD i false = true ↔ Odd (g.usageAt i)) := by
      intro i hleaf
      rw [odd_iff hfirst hroot (fun i => (hsize i).1) ((hsize i).2 hleaf.2.1),
        hways i hleaf.1 hleaf.2.1]
    have hreduce := (hg.scripted_reduce_of_order horder).outcome_eq
    refine ⟨⟨_, (scripted_parity horder).outcome_eq, size_parityOf g order, ?_⟩,
      ?_, reducedBy g (g.parityOf order), hg.reducedByUsage hparity, ?_, ?_, ?_⟩
    · intro i hleaf
      exact toNat_of_odd_iff (hparity i hleaf)
    · intro i hpos hi
      exact ⟨hfirst.finite_ways hroot i, hways i hpos hi⟩
    · intro hsum
      rw [hreduce, checkSum_eq_ok_iff.2 hsum]
      rfl
    · intro hwrong
      rw [hreduce]
      cases hsum : checkSum .reduced s.target
          (reducedBy g (g.parityOf order)).values with
      | ok _ => exact absurd (checkSum_eq_ok_iff.1 hsum) hwrong
      | error e =>
        obtain ⟨what, rfl⟩ := exists_defect_of_checkSum hsum
        exact ⟨what, rfl⟩
    · intro hs
      rw [hreduce, checkSum_reducedBy hg hs hfirst hmem]
      rfl

/-- The one derived value of `sharing` is a summand of the root and of
nothing else; the pool member `2` is asked for twice. -/
theorem unshared_sharing (hgraph : sharing.graph.outcome = .ok g) :
    g.Unshared := by
  have hg : IsGraphOf sharing g := isGraphOf_of_graph hgraph
  have hcounted : g.Counted := counted_of_graph hgraph
  have hrecord : ∀ key r, sharing.records.get? key = some r →
      key = #[1] ∧ r = ⟨#[3], #[2], #[1]⟩ := by
    intro key r hr
    unfold sharing at hr
    rw [Table.get?_insert] at hr
    split at hr
    · next hkey =>
      cases hr
      exact ⟨(eq_of_beq hkey).symm, rfl⟩
    · rw [Table.get?_empty] at hr
      cases hr
  have hsummands : ∀ j, 0 < j → j < g.size →
      g.summands j = [] ∨ (g.valueAt j = #[1] ∧
        g.summands j = [#[3], #[2]]) := by
    intro j hposj hj
    rcases (hg.explained j hposj hj).source with
      ⟨-, hnone⟩ | ⟨-, r, hr, hoperands⟩
    · exact .inl hnone
    · obtain ⟨hkey, rfl⟩ := hrecord _ r hr
      exact .inr ⟨hkey, hoperands⟩
  intro i hpos hi hinner
  have hvalue : g.valueAt i = #[1] := by
    rcases hsummands i hpos hi with hnone | ⟨hvalue, -⟩
    · exact absurd (childrenAt_eq_empty_iff.2 hnone) hinner
    · exact hvalue
  have hothers : ∀ j ∈ Finset.Ico 1 g.size, (g.childrenAt j).count i = 0 := by
    intro j hj
    obtain ⟨hposj, hj⟩ := Finset.mem_Ico.1 hj
    rw [hg.count_childrenAt hpos hi, hvalue]
    rcases hsummands j hposj hj with hnone | ⟨-, hoperands⟩
    · rw [hnone]
      rfl
    · rw [hoperands]
      decide
  rw [hcounted i, if_neg (Nat.ne_of_gt hpos), references, sum_nodes,
    Finset.sum_eq_zero hothers, hg.count_childrenAt hpos hi,
    hg.computed, hvalue]
  decide

theorem reduce_unshared_sharing :
    ∃ g, sharing.graph.outcome = .ok g ∧ ¬g.Cyclic ∧ g.Unshared ∧
    ∃ r, ReducedByUsage g r ∧ (g.reduce sharing).outcome = .ok r := by
  obtain ⟨g, hgraph, hg⟩ := exists_graph_sharing
  have hacyclic : ¬g.Cyclic := hg.acyclic closed_sharing
  have hunshared : g.Unshared := unshared_sharing hgraph.outcome_eq
  obtain ⟨-, -, r, hr, -, -, hconsistent⟩ :=
    reduce_unshared hgraph.outcome_eq hacyclic hunshared
  exact ⟨g, hgraph.outcome_eq, hacyclic, hunshared, r, hr,
    hconsistent consistent_sharing⟩

/-- A solution by hand whose one value is not the target. -/
def wrong : Solution where
  target := #[3]
  pool := [#[1]]
  computed := [#[1]]
  records := .empty

/-- Its graph is no more than the root and a leaf, and still there is
no reduction. -/
theorem reduce_wrong :
    ∃ g, wrong.graph.outcome = .ok g ∧ ¬g.Cyclic ∧ g.Unshared ∧
    ∃ what, (g.reduce wrong).outcome = .error (.defect .reduced what) := by
  have hclosed : Records.Closed wrong.pool wrong.records := Records.closed_empty
  obtain ⟨g, hgraph, hg⟩ : ∃ g, Job.Scripted wrong.graph (.ok g) ∧
      IsGraphOf wrong g := by
    refine exists_graph_of_closed hclosed ?_
    intro v hv
    rw [List.mem_singleton.1 hv]
    exact .inl (by decide +kernel)
  have hacyclic : ¬g.Cyclic := hg.acyclic hclosed
  have hunshared : g.Unshared := by
    intro i hpos hi hinner
    rcases (hg.explained i hpos hi).source with ⟨-, hnone⟩ | ⟨-, r, hr, -⟩
    · exact absurd (childrenAt_eq_empty_iff.2 hnone) hinner
    · cases (Table.get?_empty _).symm.trans hr
  refine ⟨g, hgraph.outcome_eq, hacyclic, hunshared, ?_⟩
  obtain ⟨_, horder, hordering⟩ := scripted_order hg.lt_of_child
  cases hordering with
  | cyclic below => exact absurd ⟨_, below⟩ hacyclic
  | @listed order hfirst hmem =>
    have hnodup := hg.nodup_reducedBy (g.parityOf order)
    have hvalues : ∀ v ∈ (reducedBy g (g.parityOf order)).values, v = #[1] := by
      intro v hv
      obtain ⟨i, hleaf, rfl, -⟩ := mem_reducedBy.1 hv
      exact List.mem_singleton.1 (hg.leaf hleaf).1
    rw [(hg.scripted_reduce_of_order horder).outcome_eq]
    cases hsum : checkSum .reduced wrong.target
      (reducedBy g (g.parityOf order)).values with
    | error e =>
      obtain ⟨what, rfl⟩ := exists_defect_of_checkSum hsum
      exact ⟨what, rfl⟩
    | ok _ =>
      -- the values are `1` or nothing, and neither adds up to `3`
      obtain ⟨-, htotal⟩ := checkSum_eq_ok_iff.1 hsum
      generalize (reducedBy g (g.parityOf order)).values =
        values at hnodup hvalues htotal
      cases values with
      | nil => exact absurd htotal (by decide +kernel)
      | cons v vs =>
        obtain ⟨rfl, hvs⟩ := List.forall_mem_cons.1 hvalues
        have hnone : vs = [] := by
          refine List.eq_nil_iff_forall_not_mem.2 ?_
          intro u hu
          exact (List.nodup_cons.1 hnodup).1 (hvs u hu ▸ hu)
        subst hnone
        exact absurd htotal (by decide +kernel)

end Solution

end XorSpan
