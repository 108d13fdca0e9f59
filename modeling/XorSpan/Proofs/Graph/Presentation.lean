/-
In what order a solution is written down. The values found, the pool and
the records may come in any order, and a record may name its operands the
other way round: the graph gets other numbers, a walk or a search that
fails may fail elsewhere, and still the reduction is the same or there is
none (`reduce_reordered`).

A node's counterpart in the other graph is the node of its value. The
graphs are alike under that, so they agree on cycles, on the parities of
ways and on how often a node is a child; and what a reduction lists and
counts is no more than that.
-/
import XorSpan.Proofs.Graph.Census
import XorSpan.Proofs.Graph.Closed
import XorSpan.Proofs.Graph.Likeness

namespace XorSpan

open XorSpan.Graph Relation

/-- The record with its operands the other way round. -/
def Record.turned (r : Record) : Record := ⟨r.right, r.left, r.result⟩

namespace Solution

variable {s s' : Solution} {g g' : Graph} {i j : Nat} {v : Bytes} {r : Record}

-- ============================================================= the orders

/-- The same solution written down in another order. What was counted
on the way to it plays no part. -/
structure Reordered (s s' : Solution) : Prop where
  target : s'.target = s.target
  computed : s.computed.Perm s'.computed
  pool : s.pool.Perm s'.pool
  /-- The same keys, whatever their order, and under each of them the same
  record or that record turned round. -/
  records : ∀ key, s'.records.get? key = s.records.get? key ∨
    s'.records.get? key = (s.records.get? key).map Record.turned

namespace Reordered

/-- Of two solutions in different orders either is the other one
reordered. -/
theorem symm (h : Reordered s s') : Reordered s' s where
  target := h.target.symm
  computed := h.computed.symm
  pool := h.pool.symm
  records key := by
    rcases h.records key with heq | heq
    · exact .inl heq.symm
    · right
      have hturned : Record.turned ∘ Record.turned = id := rfl
      rw [heq, Option.map_map, hturned, Option.map_id, id_eq]

/-- What has a record has one in the other solution too, the same or
with its operands turned. -/
theorem get?_of_some (h : Reordered s s') (hr : s.records.get? v = some r) :
    s'.records.get? v = some r ∨ s'.records.get? v = some r.turned := by
  have hkey := h.records v
  rw [hr] at hkey
  exact hkey

/-- And what has none has none. -/
theorem get?_of_none (h : Reordered s s') (hnone : s.records.get? v = none) :
    s'.records.get? v = none := by
  rcases h.records v with heq | heq
  · rw [heq, hnone]
  · rw [heq, hnone]
    rfl

/-- The same values are needed. The values computed are the same, and
a record turned over has the same operands. -/
theorem needed (h : Reordered s s') (hv : s.Needed v) : s'.Needed v := by
  induction hv with
  | computed hv => exact .computed (h.computed.mem_iff.1 hv)
  | left _ hzero hpool hr ih =>
    have hpool' := mt h.pool.mem_iff.2 hpool
    rcases h.get?_of_some hr with hr' | hr'
    · exact ih.left hzero hpool' hr'
    · exact ih.right hzero hpool' hr'
  | right _ hzero hpool hr ih =>
    have hpool' := mt h.pool.mem_iff.2 hpool
    rcases h.get?_of_some hr with hr' | hr'
    · exact ih.right hzero hpool' hr'
    · exact ih.left hzero hpool' hr'

/-- If the one graph can be drawn, so can the other. What is needed is
explained in both or in neither. -/
theorem exists_graph (h : Reordered s s') (hg : IsGraphOf s g) :
    ∃ g', Job.Scripted s'.graph (.ok g') ∧ IsGraphOf s' g' := by
  obtain ⟨r, hscript, hdrawing⟩ := scripted_graph s'
  cases hdrawing with
  | drawn hg' => exact ⟨_, hscript, hg'⟩
  | zero needed zero =>
    exact absurd (.inl zero) (hg.not_unexplained (h.symm.needed needed))
  | orphan needed _ foreign unrecorded =>
    refine absurd (.inr ⟨?_, h.symm.get?_of_none unrecorded⟩)
      (hg.not_unexplained (h.symm.needed needed))
    intro hbase
    exact foreign (h.pool.mem_iff.1 hbase.1)

-- ============================================================ counterparts

/-- Nodes of one value have the same summands, in any order. They are
the operands of one record, or there are none. -/
theorem summands_perm (h : Reordered s s') (hg : IsGraphOf s g)
    (hg' : IsGraphOf s' g')
    (hi : 0 < i ∧ i < g.size) (hj : 0 < j ∧ j < g'.size)
    (hvalue : g'.valueAt j = g.valueAt i) :
    (g'.summands j).Perm (g.summands i) := by
  have hsource' := (hg'.explained j hj.1 hj.2).source
  rw [hvalue] at hsource'
  rcases (hg.explained i hi.1 hi.2).source with
    ⟨hpool, hnone⟩ | ⟨hpool, r, hr, hsummands⟩
  · rcases hsource' with ⟨-, hnone'⟩ | ⟨hforeign, -⟩
    · rw [hnone, hnone']
    · exact absurd (h.pool.mem_iff.1 hpool) hforeign
  · rcases hsource' with ⟨hmember, -⟩ | ⟨-, r', hr', hsummands'⟩
    · exact absurd (h.pool.mem_iff.2 hmember) hpool
    · rw [hsummands, hsummands']
      rcases h.get?_of_some hr with heq | heq
      · rw [hr'] at heq
        cases heq
        exact .refl _
      · rw [hr'] at heq
        cases heq
        exact .swap _ _ _

end Reordered

/-- The node of `g'` that stands for what `i` stands for in `g`. -/
def counterpart (g g' : Graph) (i : Nat) : Nat :=
  if i = 0 then 0 else (g'.indexOf? (g.valueAt i)).getD 0

namespace Reordered

/-- Every node below the root has a counterpart below the root of the
other graph, with the same value. -/
theorem counterpart_pos (h : Reordered s s') (hg : IsGraphOf s g)
    (hg' : IsGraphOf s' g') (hpos : 0 < i) (hi : i < g.size) :
    0 < counterpart g g' i ∧ counterpart g g' i < g'.size ∧
      g'.valueAt (counterpart g g' i) = g.valueAt i := by
  obtain ⟨j, hj⟩ := hg'.exists_node (h.needed (hg.needed hpos hi))
  have hindex : g'.indexOf? (g.valueAt i) = some j := (hg'.indexed _ j).2 hj
  have heq : counterpart g g' i = j := by
    unfold counterpart
    rw [if_neg (Nat.ne_of_gt hpos), hindex]
    rfl
  rw [heq]
  exact hj

/-- The counterparts of a node's children are the nodes of its
summands in the other graph. -/
theorem map_counterpart (h : Reordered s s') (hg : IsGraphOf s g)
    (hg' : IsGraphOf s' g') (i : Nat) :
    ((g.childrenAt i).toList.map (counterpart g g')).map some =
      (g.summands i).map g'.indexOf? := by
  unfold summands
  rw [List.map_map, List.map_map]
  refine List.map_congr_left ?_
  intro c hc
  obtain ⟨hpos, hlt⟩ := hg.range i c (Array.mem_toList_iff.1 hc)
  exact ((hg'.indexed _ _).2 (h.counterpart_pos hg hg' hpos hlt)).symm

/-- The two graphs are alike. A node is placed where its value is
found, and the root where the root is. -/
theorem like (h : Reordered s s') (hg : IsGraphOf s g) (hg' : IsGraphOf s' g') :
    Like g g' (counterpart g g') := by
  have hroot : counterpart g g' 0 = 0 := rfl
  have hvalue : ∀ i < g.size, g'.valueAt (counterpart g g' i) =
      g.valueAt i := by
    intro i hi
    rcases Nat.eq_zero_or_pos i with rfl | hpos
    · rw [hroot, hg.target, hg'.target, h.target]
    · exact (h.counterpart_pos hg hg' hpos hi).2.2
  refine ⟨hroot, ?_, ?_, ?_, hvalue, ?_, hg.lt_of_child⟩
  · intro i hi
    rcases Nat.eq_zero_or_pos i with rfl | hpos
    · exact g'.nonempty
    · exact (h.counterpart_pos hg hg' hpos hi).2.1
  · intro i hi j hj heq
    rcases Nat.eq_zero_or_pos i with rfl | hposi
    · rcases Nat.eq_zero_or_pos j with rfl | hposj
      · rfl
      · have hpos := (h.counterpart_pos hg hg' hposj hj).1
        rw [← heq] at hpos
        exact absurd hpos (Nat.lt_irrefl 0)
    · rcases Nat.eq_zero_or_pos j with rfl | hposj
      · have hpos := (h.counterpart_pos hg hg' hposi hi).1
        rw [heq] at hpos
        exact absurd hpos (Nat.lt_irrefl 0)
      · refine hg.indexed.inj ⟨hposi, hi⟩ ⟨hposj, hj⟩ ?_
        rw [← hvalue i hi, ← hvalue j hj, heq]
  · intro k hk
    rcases Nat.eq_zero_or_pos k with rfl | hpos
    · exact ⟨0, g.nonempty, hroot⟩
    · obtain ⟨i, hposi, hi, heq⟩ :=
        hg.exists_node (h.symm.needed (hg'.needed hpos hk))
      obtain ⟨hpos', hlt', hvalue'⟩ := h.counterpart_pos hg hg' hposi hi
      exact ⟨i, hi, hg'.indexed.inj ⟨hpos', hlt'⟩ ⟨hpos, hk⟩
        (hvalue'.trans heq)⟩
  · intro i hi
    have hsummands :
        (g'.summands (counterpart g g' i)).Perm (g.summands i) := by
      rcases Nat.eq_zero_or_pos i with rfl | hpos
      · rw [hroot, hg.computed, hg'.computed]
        exact h.computed.symm
      · obtain ⟨hpos', hlt', hvalue'⟩ := h.counterpart_pos hg hg' hpos hi
        exact h.summands_perm hg hg' ⟨hpos, hi⟩ ⟨hpos', hlt'⟩ hvalue'
    rw [← List.map_perm_map_iff (Option.some_injective Nat), hg'.map_childrenAt,
      h.map_counterpart hg hg']
    exact hsummands.map _

end Reordered

-- ========================================================= what is counted

section Counting

variable {place : Nat → Nat} {parity parity' : Array Bool}

/-- A leaf's counterpart is a leaf. -/
theorem decide_leafAt_of_like (hl : Like g g' place) (hi : i < g.size) :
    decide (LeafAt g' (place i)) = decide (LeafAt g i) := by
  rw [decide_eq_decide]
  exact hl.leafAt_iff hi

/-- The marked leaves have the same values. They stand in another
order, which is why they are sorted in the end. -/
theorem perm_values_of_like (hl : Like g g' place)
    (hparity : ∀ i < g.size, parity'.getD (place i) false =
      parity.getD i false) :
    ((oddLeaves g parity).map g.valueAt).Perm
      ((oddLeaves g' parity').map g'.valueAt) := by
  have hperm :
      ((oddLeaves g parity).map place).Perm (oddLeaves g' parity') := by
    refine hl.filter_perm ?_
    intro i hi
    rw [hparity i hi, decide_leafAt_of_like hl hi]
  have hvalues : (oddLeaves g parity).map g.valueAt =
      ((oddLeaves g parity).map place).map g'.valueAt := by
    rw [List.map_map]
    refine List.map_congr_left ?_
    intro i hi
    exact (hl.value i (List.mem_range.1 (List.mem_of_mem_filter hi))).symm
  rw [hvalues]
  exact hperm.map _

/-- And the same is counted in both graphs, as references are counted
alike and marks agree. -/
theorem tallied_of_like (hl : Like g g' place) (hg : g.Counted)
    (hg' : g'.Counted)
    (hparity : ∀ i < g.size, parity'.getD (place i) false =
      parity.getD i false) :
    tallied g' parity' (List.range g'.size) =
      tallied g parity (List.range g.size) := by
  unfold tallied
  congr 1
  · exact hl.countP_eq fun i hi => decide_leafAt_of_like hl hi
  · refine hl.countP_eq ?_
    intro i hi
    rw [hparity i hi, decide_leafAt_of_like hl hi]
  · refine hl.countP_eq ?_
    intro i hi
    rw [hparity i hi, decide_leafAt_of_like hl hi, hl.usageAt_eq hg hg' hi]

/-- Marks that agree make the same reduction. Values are sorted, and
counters do not depend on the order. -/
theorem reducedBy_of_like (hl : Like g g' place) (hg : g.Counted)
    (hg' : g'.Counted)
    (hparity : ∀ i < g.size, parity'.getD (place i) false =
      parity.getD i false) :
    reducedBy g' parity' = reducedBy g parity := by
  unfold reducedBy
  rw [tallied_of_like hl hg hg' hparity,
    Reduction.sortByHex_eq_of_perm (perm_values_of_like hl hparity)]

end Counting

-- ================================================================ outcome

/-- Both come to the same result, or both to a defect, of the same
stage but not always at the same value. -/
inductive SameEnd {α : Type} : Except Fault α → Except Fault α → Prop where
  | result (a : α) : SameEnd (.ok a) (.ok a)
  | defect (stage : Stage) (what what' : Defect) :
      SameEnd (.error (.defect stage what)) (.error (.defect stage what'))

/-- The values add up for both or for neither. It is the one check
that follows the scan, and it looks at the same values. -/
theorem sameEnd_checkSum {α : Type} (stage : Stage) (target : Bytes)
    (values : List Bytes) (a : α) :
    SameEnd ((checkSum stage target values).map fun _ => a)
      ((checkSum stage target values).map fun _ => a) := by
  cases hsum : checkSum stage target values with
  | ok _ => exact .result a
  | error e =>
    obtain ⟨what, rfl⟩ := exists_defect_of_checkSum hsum
    exact .defect stage what what

/-- Graphs of one solution in two orders are reduced alike. If one has
a cycle so has the other, though it may be found at another node. -/
theorem Reordered.sameEnd_reduce (h : Reordered s s') (hg : IsGraphOf s g)
    (hg' : IsGraphOf s' g') (hcounted : g.Counted) (hcounted' : g'.Counted) :
    ∃ r r', Job.Scripted (g.reduce s) r ∧ Job.Scripted (g'.reduce s') r' ∧
    SameEnd r r' := by
  have hl : Like g g' (counterpart g g') := h.like hg hg'
  obtain ⟨_, horder, hordering⟩ := scripted_order hg.lt_of_child
  obtain ⟨_, horder', hordering'⟩ := scripted_order hg'.lt_of_child
  cases hordering with
  | listed hfirst hmem =>
    cases hordering' with
    | listed hfirst' hmem' =>
      refine ⟨_, _, hg.scripted_reduce_of_order horder,
        hg'.scripted_reduce_of_order horder', ?_⟩
      rw [h.target, reducedBy_of_like hl hcounted hcounted' ?_]
      · exact sameEnd_checkSum ..
      · intro i hi
        exact hl.getD_parityOf hfirst ((hmem 0).2 .refl)
          (fun i => (hg.mem_order hmem).1)
          ((hg.mem_order hmem).2 hi) hfirst' ((hmem' 0).2 .refl)
          (fun i => (hg'.mem_order hmem').1)
            ((hg'.mem_order hmem').2 (hl.lt i hi))
    | cyclic hbelow' =>
      exact absurd (hl.cyclic_iff.1 ⟨_, hbelow'⟩)
        (hg.not_cyclic_of_order hfirst hmem)
  | cyclic hbelow =>
    cases hordering' with
    | listed hfirst' hmem' =>
      exact absurd (hl.cyclic_iff.2 ⟨_, hbelow⟩)
        (hg'.not_cyclic_of_order hfirst' hmem')
    | cyclic hbelow' =>
      exact ⟨_, _, scripted_reduce_of_disorder horder,
        scripted_reduce_of_disorder horder', .defect ..⟩

/-- A solution without a graph is one whose walk fails. Which value is
missed may depend on the order, so the defect is only known to be
there. -/
theorem exists_defect_of_undrawn (hnone : ¬∃ g, IsGraphOf s g) :
    ∃ what, Job.Scripted s.graph (.error (.defect .walk what)) := by
  obtain ⟨r, hscript, hdrawing⟩ := scripted_graph s
  cases hdrawing with
  | drawn hg => exact absurd ⟨_, hg⟩ hnone
  | zero => exact ⟨_, hscript⟩
  | orphan => exact ⟨_, hscript⟩

/-- Drawing the graph of a solution and reducing it comes to the same
values and counters, or to a defect of the same stage, in whatever
order the solution is written down. -/
theorem reduce_reordered (h : Reordered s s') :
    SameEnd (s.graph >>= fun g => g.reduce s).outcome
      (s'.graph >>= fun g => g.reduce s').outcome := by
  by_cases hdrawn : ∃ g, IsGraphOf s g
  · obtain ⟨_, hg₀⟩ := hdrawn
    obtain ⟨g', hgraph', hg'⟩ := h.exists_graph hg₀
    obtain ⟨g, hgraph, hg⟩ := h.symm.exists_graph hg'
    obtain ⟨r, r', hreduce, hreduce', hsame⟩ := h.sameEnd_reduce hg hg'
      (counted_of_graph hgraph.outcome_eq) (counted_of_graph hgraph'.outcome_eq)
    rw [(hgraph.bind hreduce).outcome_eq, (hgraph'.bind hreduce').outcome_eq]
    exact hsame
  · have hdrawn' : ¬∃ g', IsGraphOf s' g' := by
      intro ⟨g', hg'⟩
      obtain ⟨g, -, hg⟩ := h.symm.exists_graph hg'
      exact hdrawn ⟨g, hg⟩
    obtain ⟨what, hwalk⟩ := exists_defect_of_undrawn hdrawn
    obtain ⟨what', hwalk'⟩ := exists_defect_of_undrawn hdrawn'
    rw [hwalk.bind_error.outcome_eq, hwalk'.bind_error.outcome_eq]
    exact .defect .walk what what'

/-- A solution by hand with two records, and below the same in another
order throughout. -/
def forward : Solution where
  target := #[7]
  pool := [#[3], #[2], #[12], #[8]]
  computed := [#[1], #[4], #[2]]
  records := (Table.empty.insert #[1] ⟨#[3], #[2], #[1]⟩).insert #[4]
    ⟨#[12], #[8], #[4]⟩

def backward : Solution where
  target := #[7]
  pool := [#[8], #[12], #[2], #[3]]
  computed := [#[2], #[4], #[1]]
  records := (Table.empty.insert #[4] ⟨#[8], #[12], #[4]⟩).insert #[1]
    ⟨#[3], #[2], #[1]⟩

/-- The records of the example by their keys, in one order, -/
theorem get?_forward (key : Bytes) :
    forward.records.get? key =
      if key = #[4] then some ⟨#[12], #[8], #[4]⟩
      else if key = #[1] then some ⟨#[3], #[2], #[1]⟩ else none := by
  unfold forward
  simp only [Table.get?_insert, Table.get?_empty, beq_iff_eq,
    eq_comm (b := key)]

/-- and in the other. -/
theorem get?_backward (key : Bytes) :
    backward.records.get? key =
      if key = #[1] then some ⟨#[3], #[2], #[1]⟩
      else if key = #[4] then some ⟨#[8], #[12], #[4]⟩ else none := by
  unfold backward
  simp only [Table.get?_insert, Table.get?_empty, beq_iff_eq,
    eq_comm (b := key)]

/-- The example twice: the records in the other order and the operands
of one of them turned, and the values and the pool in another order as
well. -/
theorem reordered_backward : Reordered forward backward := by
  refine ⟨rfl, (List.reverse_perm _).symm, (List.reverse_perm _).symm, ?_⟩
  intro key
  rw [get?_forward, get?_backward]
  by_cases hone : key = #[1]
  · subst hone
    exact .inl rfl
  · rw [if_neg hone, if_neg hone]
    right
    split <;> rfl

/-- Both come to one reduction, with the same values and counters. -/
theorem reduce_reordered_backward : ∃ r,
    (forward.graph >>= fun g => g.reduce forward).outcome = .ok r ∧
      (backward.graph >>= fun g => g.reduce backward).outcome = .ok r := by
  have hclosed : Records.Closed forward.pool forward.records := by
    refine (Records.closed_empty.insert ?_).insert ?_
    · refine ⟨?_, rfl, rfl, rfl, ?_, ?_, ⟨6, 7, ?_⟩, .inl ?_,
        .inl ?_⟩ <;> decide +kernel
    · refine ⟨?_, rfl, rfl, rfl, ?_, ?_, ⟨4, 5, ?_⟩, .inl ?_,
        .inl ?_⟩ <;> decide +kernel
  have hconsistent : Consistent forward :=
    ⟨by decide, by decide +kernel, fun key r hr => (hclosed key r hr).make⟩
  have haccounted : ∀ v ∈ forward.computed,
      Records.Accounted forward.pool forward.records v := by
    intro v hv
    rcases List.mem_cons.1 hv with rfl | hv
    · exact .inr (by rw [get?_forward]; rfl)
    · rcases List.mem_cons.1 hv with rfl | hv
      · exact .inr (by rw [get?_forward]; rfl)
      · rw [List.mem_singleton.1 hv]
        exact .inl (by decide +kernel)
  obtain ⟨g, hgraph, hg⟩ := exists_graph_of_closed hclosed haccounted
  obtain ⟨q, hreduce, hreduced⟩ := scripted_reduce hg hconsistent
  have hsame := reduce_reordered reordered_backward
  rw [(hgraph.bind hreduce).outcome_eq] at hsame ⊢
  cases hreduced with
  | cyclic hbelow => exact absurd ⟨_, hbelow⟩ (hg.acyclic hclosed)
  | @exact r =>
    generalize (backward.graph >>= fun g => g.reduce backward).outcome =
      other at hsame ⊢
    cases hsame with
    | result => exact ⟨r, rfl, rfl⟩

end Solution

end XorSpan
