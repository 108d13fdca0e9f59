/-
The leaves of a chart. A line that shows no children begins with the label
of a leaf, and every leaf below the root has such a line, since some node
refers to it. So the labels of these lines are those of the leaves
(`IsGraphOf.leafLabels_eq`).

A reduction keeps the leaves that an odd number of ways lead to. The chart
is drawn before the reduction and shows the others as well; they are the
leaves that cancel (`leafLabels_outcome`).
-/
import XorSpan.Proofs.Answers
import XorSpan.Proofs.Graph.Lines

namespace XorSpan

open Relation

-- ================================================================= texts

namespace Bytes

/-- None of what stands between labels is a digit. -/
theorem digitOf_ne : ∀ d : Fin 16, digitOf d ≠ '[' ∧ digitOf d ≠ ' ' ∧
    digitOf d ≠ '^' := by decide

/-- No mark that separates the parts of a line occurs in hex text. -/
theorem ne_of_mem_hexChars {v : Bytes} {c : Char} (h : c ∈ v.hexChars) :
    c ≠ '[' ∧ c ≠ ' ' ∧ c ≠ '^' := by
  obtain ⟨d, rfl⟩ := exists_digitOf_of_mem_hexChars h
  exact digitOf_ne d

end Bytes

namespace Chart

variable {g : Graph} {i : Nat} {parent : Option String}

/-- The item that a line begins with: for a leaf, its label. -/
def lineLabel (text : String) : String :=
  String.ofList (text.toList.takeWhile (· != ' '))

/-- The labels of the lines that show no children. -/
def leafLabels (g : Graph) : Set String :=
  {l | ∃ text ∈ body g, text.contains '[' = false ∧ lineLabel text = l}

theorem toList_label (g : Graph) (i : Nat) :
    (label g i).toList = (g.valueAt i).hexChars :=
  String.toList_ofList

theorem ne_of_mem_label {c : Char} (h : c ∈ (label g i).toList) :
    c ≠ '[' ∧ c ≠ ' ' := by
  rw [toList_label] at h
  obtain ⟨hbracket, hblank, -⟩ := Bytes.ne_of_mem_hexChars h
  exact ⟨hbracket, hblank⟩

theorem item_of_leaf (h : g.childrenAt i = #[]) : item g i = label g i := by
  unfold item
  rw [h]
  rfl

/-- A node with children is shown in brackets, under whatever label.
So a line without a bracket is a leaf's, or that of a root without
values. -/
theorem contains_line_of_inner (h : g.childrenAt i ≠ #[]) :
    (line g i parent).contains '[' = true := by
  have hinner : ¬(g.childrenAt i).toList.isEmpty = true := by
    rw [List.isEmpty_iff, Array.toList_eq_nil_iff]
    exact h
  have hitem : '[' ∈ (item g i).toList := by
    unfold item
    dsimp only
    rw [if_neg hinner]
    simp
  rw [String.contains_char_eq, decide_eq_true_eq]
  cases parent with
  | none => exact hitem
  | some l =>
    unfold line
    rw [String.toList_append, String.toList_append]
    exact List.mem_append_left _ (List.mem_append_left _ hitem)

/-- What stands behind the item of a line. -/
def tail : Option String → List Char
  | none => []
  | some l => " --> ".toList ++ l.toList

/-- A line is the item of its node, and what names the parent. -/
theorem toList_line (g : Graph) (i : Nat) (parent : Option String) :
    (line g i parent).toList = (item g i).toList ++ tail parent := by
  cases parent with
  | none => exact (List.append_nil _).symm
  | some l =>
    unfold line tail
    rw [String.toList_append, String.toList_append, List.append_assoc]

theorem toList_line_of_leaf (h : g.childrenAt i = #[]) :
    (line g i parent).toList = (label g i).toList ++ tail parent := by
  rw [toList_line, item_of_leaf h]

theorem contains_line_of_leaf (hdue : Due g i parent)
    (h : g.childrenAt i = #[]) :
    (line g i parent).contains '[' = false := by
  have htail : '[' ∉ tail parent := by
    cases hdue with
    | root => exact List.not_mem_nil
    | child =>
      unfold tail
      rw [List.mem_append, not_or]
      exact ⟨by decide, fun hmem => (ne_of_mem_label hmem).1 rfl⟩
  rw [String.contains_char_eq, decide_eq_false_iff_not, toList_line_of_leaf h,
    List.mem_append, not_or]
  exact ⟨fun hmem => (ne_of_mem_label hmem).1 rfl, htail⟩

/-- A line begins with its item, if that has no blank in it. The label
is what stands before the first blank. -/
theorem lineLabel_line (h : ' ' ∉ (item g i).toList) :
    lineLabel (line g i parent) = item g i := by
  have hitem : ∀ c ∈ (item g i).toList, (c != ' ') = true := by
    intro c hc
    rw [bne_iff_ne]
    rintro rfl
    exact h hc
  have htail : (tail parent).takeWhile (· != ' ') = [] := by
    cases parent <;> rfl
  unfold lineLabel
  rw [toList_line, List.takeWhile_append_of_pos hitem, htail, List.append_nil,
    String.ofList_toList]

/-- A leaf's line begins with its label. So the labels of leaves can
be read off the chart. -/
theorem lineLabel_line_of_leaf (h : g.childrenAt i = #[]) :
    lineLabel (line g i parent) = label g i := by
  rw [lineLabel_line, item_of_leaf h]
  rw [item_of_leaf h]
  exact fun hmem => (ne_of_mem_label hmem).2 rfl

end Chart

namespace Solution

open XorSpan.Graph Chart

variable {target : Bytes} {pool : List Bytes} {s : Solution}
    {g : Graph} {i : Nat}

-- ================================================================ leaves

/-- Every node below the root is somebody's child. So it has a line in
the chart. -/
theorem IsGraphOf.exists_due (hg : IsGraphOf s g) (hpos : 0 < i)
    (hi : i < g.size) :
    ∃ parent, Due g i parent := by
  rcases ReflTransGen.cases_tail (hg.reached i hi) with rfl | ⟨p, hp, hc⟩
  · exact absurd hpos (Nat.lt_irrefl 0)
  · exact ⟨_, .child hp hc⟩

/-- The lines that show no children are those of the leaves, unless
there is nothing but the root. -/
theorem IsGraphOf.leafLabels_eq (hg : IsGraphOf s g) (hne : s.computed ≠ []) :
    leafLabels g = label g '' {i | LeafAt g i} := by
  have hroot : g.childrenAt 0 ≠ #[] := by
    intro hnone
    rw [childrenAt_eq_empty_iff, hg.computed] at hnone
    exact hne hnone
  ext l
  constructor
  · rintro ⟨text, htext, hplain, rfl⟩
    obtain ⟨i, parent, hdue, rfl⟩ := (mem_body_iff g text).1 htext
    have hleaf : g.childrenAt i = #[] := by
      by_contra hinner
      rw [contains_line_of_inner hinner] at hplain
      cases hplain
    refine ⟨i, ?_, (lineLabel_line_of_leaf hleaf).symm⟩
    cases hdue with
    | root => exact absurd hleaf hroot
    | child _ hc =>
      obtain ⟨hpos, hlt⟩ := hg.range _ _ hc
      exact ⟨hpos, hlt, hleaf⟩
  · rintro ⟨i, ⟨hpos, hlt, hleaf⟩, rfl⟩
    obtain ⟨parent, hdue⟩ := hg.exists_due hpos hlt
    refine ⟨line g i parent, (mem_body_iff g _).2 ⟨i, parent,
      hdue, rfl⟩, ?_, ?_⟩
    · exact contains_line_of_leaf hdue hleaf
    · exact lineLabel_line_of_leaf hleaf

-- ============================================================== parities

/-- In a graph without cycles the parities are found, and they are
those of the ways. -/
theorem IsGraphOf.exists_parity (hg : IsGraphOf s g) (hacyclic : ¬g.Cyclic) :
    ∃ parity, Job.Scripted g.parity (.ok parity) ∧
      ∀ i < g.size, parity.getD i false = true ↔ Odd (g.ways 0 i).ncard := by
  obtain ⟨r, hscript, hordering⟩ := scripted_order hg.lt_of_child
  cases hordering with
  | cyclic below => exact absurd ⟨_, below⟩ hacyclic
  | @listed order hfirst hmem =>
    refine ⟨_, scripted_parity hscript, ?_⟩
    intro i hi
    exact odd_iff hfirst ((hmem 0).2 .refl)
      (fun j hj => (hg.mem_order hmem).1 hj)
      ((hg.mem_order hmem).2 hi)

-- ================================================= chart and reduction

/-- A nonzero target is made of something. Nothing adds up to zero. -/
theorem Sound.computed_ne_nil (hs : Sound target pool s)
    (hzero : target.isZero = false) :
    s.computed ≠ [] := by
  intro hnil
  have hsum := hs.sum
  rw [hnil] at hsum
  have htarget : target.isZero = true := by
    rw [← hsum, Bytes.isZero_iff]
    exact Bytes.toWord_zeros _
  rw [hzero] at htarget
  cases htarget

/-- The labels of the leaf lines of a chart are those of the reduced
values and of the leaves that cancel. No label is both, and each is
that of a nonzero pool member; where no leaf cancels, they are those
of the reduced values. -/
theorem leafLabels_outcome (hfind : (find target pool).outcome = .ok s)
    (hzero : target.isZero = false) :
    ∃ g r parity, s.graph.outcome = .ok g ∧ (g.reduce s).outcome = .ok r ∧
      g.parity.outcome = .ok parity ∧
      leafLabels g = Bytes.toHex '' {v | v ∈ r.values} ∪
        label g '' {i | LeafAt g i ∧ parity.getD i false = false} ∧
      Disjoint (Bytes.toHex '' {v | v ∈ r.values})
        (label g '' {i | LeafAt g i ∧ parity.getD i false = false}) ∧
      (∀ l ∈ leafLabels g, ∃ v ∈ pool, v.isZero = false ∧ v.toHex = l) ∧
      ((∀ i, LeafAt g i → parity.getD i false = true) →
        leafLabels g = Bytes.toHex '' {v | v ∈ r.values}) := by
  have hs : Sound target pool s := sound_of_find hfind
  obtain ⟨g, hgraph, hg⟩ := hs.exists_graph
  obtain ⟨r, hreduce, hr⟩ := hs.exists_reduction hg
  obtain ⟨parity, hparity, hodd⟩ := hg.exists_parity (hg.acyclic hs.closed)
  have hlabels : leafLabels g = label g '' {i | LeafAt g i} :=
    hg.leafLabels_eq (hs.computed_ne_nil hzero)
  have hvalues : Bytes.toHex '' {v | v ∈ r.values} =
      label g '' {i | LeafAt g i ∧ parity.getD i false = true} := by
    ext l
    constructor
    · rintro ⟨v, hv, rfl⟩
      obtain ⟨i, hleaf, rfl, hways⟩ := (hr.mem v).1 hv
      exact ⟨i, ⟨hleaf, (hodd i hleaf.2.1).2 hways⟩, rfl⟩
    · rintro ⟨i, ⟨hleaf, hmark⟩, rfl⟩
      exact ⟨g.valueAt i, (hr.mem _).2 ⟨i, hleaf, rfl,
        (hodd i hleaf.2.1).1 hmark⟩, rfl⟩
  refine ⟨g, r, parity, hgraph.outcome_eq, hreduce.outcome_eq,
    hparity.outcome_eq, ?_, ?_, ?_, ?_⟩
  · rw [hlabels, hvalues, ← Set.image_union]
    congr 1
    ext i
    constructor
    · intro hleaf
      cases hmark : parity.getD i false with
      | true => exact .inl ⟨hleaf, hmark⟩
      | false => exact .inr ⟨hleaf, hmark⟩
    · rintro (⟨hleaf, -⟩ | ⟨hleaf, -⟩)
      · exact hleaf
      · exact hleaf
  · -- leaves of one label have one value, and so are one
    rw [hvalues, Set.disjoint_left]
    rintro _ ⟨i, ⟨hleaf, hmark⟩, rfl⟩ ⟨j, ⟨hleaf', hmark'⟩, heq⟩
    have hij :
        j = i := hg.indexed.inj ⟨hleaf'.1, hleaf'.2.1⟩ ⟨hleaf.1, hleaf.2.1⟩
      (Bytes.toHex_inj heq)
    rw [hij, hmark] at hmark'
    cases hmark'
  · rw [hlabels]
    rintro _ ⟨i, hleaf, rfl⟩
    obtain ⟨hpool, hnonzero⟩ := hg.leaf hleaf
    rw [hs.pool_eq] at hpool
    exact ⟨g.valueAt i, hpool, hnonzero, rfl⟩
  · intro hall
    rw [hlabels, hvalues]
    congr 1
    ext i
    exact ⟨fun hleaf => ⟨hleaf, hall i hleaf⟩, And.left⟩

/-- Over the unit values of one byte and `3`. -/
theorem leafLabels_outcome_three : ∃ s g r parity,
    (find #[3] (#[3] :: Bytes.units 1)).outcome = .ok s ∧
    s.graph.outcome = .ok g ∧
      (g.reduce s).outcome = .ok r ∧ g.parity.outcome = .ok parity ∧
      leafLabels g = Bytes.toHex '' {v | v ∈ r.values} ∪
        label g '' {i | LeafAt g i ∧ parity.getD i false = false} := by
  obtain ⟨s, hs⟩ := exists_find_cons_units (v := #[3])
    (rfl : _ = (#[3] : Bytes).size) (by decide)
  obtain ⟨g, r, parity, hgraph, hreduce, hparity, hlabels, -⟩ :=
    leafLabels_outcome hs (by decide +kernel)
  exact ⟨s, g, r, parity, hs, hgraph, hreduce, hparity, hlabels⟩

end Solution

end XorSpan
