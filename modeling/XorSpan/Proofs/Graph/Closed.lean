/-
Graphs over closed records. If the values of a solution are accounted for
and its records are closed, so is everything the expansion comes by, and
the graph can be drawn (`exists_graph_of_closed`). It has no cycle: a
child of a node below the root is an operand of the node's record, and
operands have their first bit further to the left (`IsGraphOf.acyclic`).
-/
import XorSpan.Proofs.Graph.Expansion
import XorSpan.Proofs.Records

namespace XorSpan.Solution

open XorSpan.Graph Records Relation

variable {s : Solution} {g : Graph} {pool : List Bytes} {v : Bytes} {i j : Nat}

-- ================================================================ drawing

/-- All that the expansion comes by is accounted for. It begins with
the values computed and goes on to operands. -/
theorem accounted_of_needed (hclosed : Closed s.pool s.records)
    (hcomputed : ∀ v ∈ s.computed, Accounted s.pool s.records v)
    (hv : s.Needed v) :
    Accounted s.pool s.records v := by
  induction hv with
  | computed hv => exact hcomputed _ hv
  | left _ _ _ hr _ => exact (hclosed _ _ hr).left
  | right _ _ _ hr _ => exact (hclosed _ _ hr).right

theorem exists_graph_of_closed (hclosed : Closed s.pool s.records)
    (hcomputed : ∀ v ∈ s.computed, Accounted s.pool s.records v) :
    ∃ g, Job.Scripted s.graph (.ok g) ∧ IsGraphOf s g := by
  obtain ⟨r, hscript, hdrawing⟩ := scripted_graph s
  cases hdrawing with
  | drawn graph => exact ⟨_, hscript, graph⟩
  | zero needed zero =>
    have hnonzero := hclosed.nonzero
      (accounted_of_needed hclosed hcomputed needed)
    rw [zero] at hnonzero
    cases hnonzero
  | orphan needed _ foreign unrecorded =>
    rcases accounted_of_needed hclosed hcomputed needed with hpool | hrecord
    · exact absurd hpool.1 foreign
    · rw [unrecorded] at hrecord
      cases hrecord

-- ============================================================== no cycles

/-- A child of a node below the root is an operand of its record. -/
theorem IsGraphOf.operand_of_child (hg : IsGraphOf s g) (hi : 0 < i)
    (hj : g.Child i j) :
    Operand s.records (g.valueAt j) (g.valueAt i) :=
  (hg.valueAt_of_child hi hj).2

/-- The root is nobody's child. So it is below nothing. -/
theorem IsGraphOf.pos_of_below (hg : IsGraphOf s g) (h : TransGen g.Child i j) :
    0 < j := by
  obtain ⟨c, -, hc⟩ := TransGen.tail'_iff.1 h
  exact (hg.range c j hc).1

/-- On the way down, first bits move to the left. So there is no
cycle, and every expansion ends at the pool. -/
theorem IsGraphOf.first_lt_of_below (hg : IsGraphOf s g)
    (hclosed : Closed pool s.records)
    (hi : 0 < i) (hbelow : TransGen g.Child i j) :
    ∃ a b, (g.valueAt j).firstBit? = some a ∧
      (g.valueAt i).firstBit? = some b ∧ a < b := by
  induction hbelow with
  | single hj => exact hclosed.first_lt (hg.operand_of_child hi hj)
  | tail hk hj ih =>
    obtain ⟨a, b, ha, hb, hlt⟩ := ih
    obtain ⟨c, a', hc, ha', hlt'⟩ :=
      hclosed.first_lt (hg.operand_of_child (hg.pos_of_below hk) hj)
    rw [ha] at ha'
    cases ha'
    exact ⟨c, b, hc, hb, Nat.lt_trans hlt' hlt⟩

theorem IsGraphOf.acyclic (hg : IsGraphOf s g)
    (hclosed : Closed pool s.records) : ¬g.Cyclic := by
  intro ⟨i, hbelow⟩
  obtain ⟨a, b, ha, hb, hlt⟩ :=
    hg.first_lt_of_below hclosed (hg.pos_of_below hbelow) hbelow
  rw [ha] at hb
  cases hb
  exact Nat.lt_irrefl a hlt

end XorSpan.Solution
