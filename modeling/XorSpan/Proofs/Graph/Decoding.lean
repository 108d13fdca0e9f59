/-
What a chart tells of its graph: all of it, up to the numbers of the
nodes. A line can be read back, since nothing that stands between labels
is a digit: up to the first blank it is the item of a node, and an item is
the label of a value and, in brackets, those of its summands
(`spelled_inj`). The label of the parent is not needed; it only tells the
root's line, which has none and comes first, from the line of a value
equal to the root's below it.

Lines that are left out do no harm, since they stand further up. So two
graphs with one chart have the same values with the same summands, and
the solutions that they are of agree in target, computed values and every
record that was used (`chart_determines`).
-/
import XorSpan.Proofs.Graph.Visits
import XorSpan.Proofs.Padding

namespace XorSpan

-- ================================================================= texts

theorem Bytes.hexChars_inj {v w : Bytes} (h : v.hexChars = w.hexChars) :
    v = w :=
  toHex_inj (congrArg String.ofList h)

/-- What is in a list with separators is in a part or is of a
separator. -/
theorem mem_of_mem_intercalate {α : Type} {x sep : α} {parts : List (List α)}
    (h : x ∈ [sep].intercalate parts) : x = sep ∨ ∃ part ∈ parts, x ∈ part := by
  induction parts with
  | nil => cases h
  | cons part parts ih =>
    cases parts with
    | nil =>
      rw [List.intercalate_singleton] at h
      exact .inr ⟨part, List.mem_cons_self .., h⟩
    | cons next parts =>
      rw [List.intercalate_cons_cons, List.mem_append, List.mem_append,
        List.mem_singleton] at h
      rcases h with (h | h) | h
      · exact .inr ⟨part, List.mem_cons_self .., h⟩
      · exact .inl h
      · exact (ih h).imp_right fun ⟨other, hother, hx⟩ =>
          ⟨other, List.mem_cons_of_mem _ hother, hx⟩

namespace Chart

variable {g h : Graph} {i j : Nat}
    {parent parent' : Option String} {v w : Bytes}
  {vs ws : List Bytes}

-- ================================================================= items

/-- Summands in brackets, behind the value that they make up. -/
def bracketed (v : Bytes) (vs : List Bytes) : List Char :=
  '[' :: (v.hexChars ++ '=' ::
    (['^'].intercalate (vs.map Bytes.hexChars) ++ [']']))

/-- A value with its summands, as an item spells them. -/
def spelled (v : Bytes) (vs : List Bytes) : List Char :=
  v.hexChars ++ if vs = [] then [] else bracketed v vs

theorem toList_item (g : Graph) (i : Nat) :
    (item g i).toList = spelled (g.valueAt i) (g.summands i) := by
  have hlabels : ((g.childrenAt i).toList.map (label g)).map String.toList =
      (g.summands i).map Bytes.hexChars := by
    unfold Graph.summands
    rw [List.map_map, List.map_map]
    exact List.map_congr_left fun c _ => toList_label g c
  unfold spelled
  by_cases hleaf : g.childrenAt i = #[]
  · rw [item_of_leaf hleaf, if_pos (Graph.childrenAt_eq_empty_iff.1 hleaf),
      List.append_nil, toList_label]
  · have hinner : ¬(g.childrenAt i).toList.isEmpty = true := by
      rw [List.isEmpty_iff, Array.toList_eq_nil_iff]
      exact hleaf
    rw [if_neg (mt Graph.childrenAt_eq_empty_iff.2 hleaf)]
    unfold item bracketed
    dsimp only
    rw [if_neg hinner]
    simp only [String.toList_append, String.toList_intercalate,
      hlabels, toList_label]
    simp

theorem blank_not_mem_spelled : ' ' ∉ spelled v vs := by
  have hlabel : ∀ w : Bytes, ' ' ∉ w.hexChars :=
    fun w h => (Bytes.ne_of_mem_hexChars h).2.1 rfl
  have hjoined : ' ' ∉ ['^'].intercalate (vs.map Bytes.hexChars) := by
    intro hmem
    rcases mem_of_mem_intercalate hmem with heq | ⟨part, hpart, hmem⟩
    · cases heq
    · obtain ⟨w, -, rfl⟩ := List.mem_map.1 hpart
      exact hlabel w hmem
  unfold spelled bracketed
  split
  · simp [hlabel]
  · simp [hlabel, hjoined]

/-- The value is what stands before the bracket. There is no bracket
in hex text. -/
theorem takeWhile_spelled (v : Bytes) (vs : List Bytes) :
    (spelled v vs).takeWhile (· != '[') = v.hexChars := by
  have hlabel : ∀ c ∈ v.hexChars, (c != '[') = true :=
    fun c hc => bne_iff_ne.2 (Bytes.ne_of_mem_hexChars hc).1
  unfold spelled bracketed
  rw [List.takeWhile_append_of_pos hlabel]
  split <;> simp

/-- A spelling can be read back. The value is read off up to the
bracket, and the summands between the marks that separate them. -/
theorem spelled_inj (h : spelled v vs = spelled w ws) : v = w ∧ vs = ws := by
  have hvw : v = w := by
    refine Bytes.hexChars_inj ?_
    rw [← takeWhile_spelled v vs, h, takeWhile_spelled]
  subst hvw
  refine ⟨rfl, ?_⟩
  have hrest := List.append_cancel_left h
  have hsplit : ∀ us : List Bytes, us ≠ [] →
      (['^'].intercalate (us.map Bytes.hexChars)).splitOn '^' =
        us.map Bytes.hexChars := by
    intro us hus
    refine List.splitOn_intercalate '^' ?_ (mt List.map_eq_nil_iff.1 hus)
    intro part hpart hmem
    obtain ⟨u, -, rfl⟩ := List.mem_map.1 hpart
    exact (Bytes.ne_of_mem_hexChars hmem).2.2 rfl
  -- a leaf has no bracket; between brackets the parts are told by their
  -- separators
  by_cases hvs : vs = []
  · by_cases hws : ws = []
    · rw [hvs, hws]
    · rw [if_pos hvs, if_neg hws] at hrest
      cases hrest
  · by_cases hws : ws = []
    · rw [if_neg hvs, if_pos hws] at hrest
      cases hrest
    · rw [if_neg hvs, if_neg hws] at hrest
      have hjoined := List.append_cancel_right
        (List.cons.inj (List.append_cancel_left (List.cons.inj hrest).2)).2
      have hdigits := congrArg (List.splitOn '^') hjoined
      rw [hsplit vs hvs, hsplit ws hws] at hdigits
      exact (List.map_inj_right fun _ _ => Bytes.hexChars_inj).1 hdigits

-- ================================================================= lines

theorem blank_not_mem_item : ' ' ∉ (item g i).toList := by
  rw [toList_item]
  exact blank_not_mem_spelled

/-- Two nodes of one line have the same value and the same summands.
They may be nodes of different graphs, under whatever parents. -/
theorem eq_of_line_eq (hline : line g i parent = line h j parent') :
    g.valueAt i = h.valueAt j ∧ g.summands i = h.summands j := by
  have hitem := congrArg lineLabel hline
  rw [lineLabel_line blank_not_mem_item,
    lineLabel_line blank_not_mem_item] at hitem
  have hchars := congrArg String.toList hitem
  rw [toList_item, toList_item] at hchars
  exact spelled_inj hchars

/-- A line without a blank is the root's. All others name their parent
behind a blank. -/
theorem blank_mem_line_iff :
    ' ' ∈ (line g i parent).toList ↔ parent ≠ none := by
  rw [toList_line, List.mem_append, or_iff_right blank_not_mem_item]
  cases parent <;> simp [tail]

end Chart

-- ============================================================== pictures

open Chart

/-- The values of the nodes other than the root. -/
def Graph.valuesBelow (g : Graph) : Set Bytes :=
  {v | ∃ i, 0 < i ∧ i < g.size ∧ g.valueAt i = v}

/-- A record as it is made: there are no others. -/
def Record.Made (r : Record) : Prop :=
  Record.make r.left r.right r.result = .ok r

/-- The result of a record is no news. It follows from the operands,
so two records with the same operands are one. -/
theorem Record.Made.eq {r r' : Record} (h : r.Made) (h' : r'.Made)
    (hleft : r'.left = r.left)
    (hright : r'.right = r.right) : r' = r := by
  obtain ⟨-, -, hsum, hr⟩ := Record.make_eq_ok_iff.1 h
  obtain ⟨-, -, hsum', hr'⟩ := Record.make_eq_ok_iff.1 h'
  rw [hr', hr, ← hsum, ← hsum', hleft, hright]

namespace Solution

variable {s s' : Solution} {g g' : Graph} {i : Nat}

theorem IsGraphOf.mem_valuesBelow (hg : IsGraphOf s g) (v : Bytes) :
    v ∈ g.valuesBelow ↔ s.Needed v := by
  constructor
  · rintro ⟨i, hpos, hi, rfl⟩
    exact hg.needed hpos hi
  · exact hg.exists_node

/-- A node below the root has one like it in a graph with the same
chart. Its line is in the other body too, and can be read. -/
theorem IsGraphOf.exists_like (hg : IsGraphOf s g) (hg' : IsGraphOf s' g')
    (hbody : body g = body g') (hpos : 0 < i) (hi : i < g.size) :
    ∃ j, 0 < j ∧ j < g'.size ∧ g'.valueAt j = g.valueAt i ∧ g'.summands j =
      g.summands i := by
  obtain ⟨p, hp, hc⟩ : ∃ p, Relation.ReflTransGen g.Child 0 p ∧
      g.Child p i := by
    rcases Relation.ReflTransGen.cases_tail (hg.reached i hi) with
      rfl | ⟨p, hp, hc⟩
    · exact absurd hpos (Nat.lt_irrefl 0)
    · exact ⟨p, hp, hc⟩
  have hmem : line g i (some (label g p)) ∈ body g :=
    (mem_body_iff g _).2 ⟨i, _, .child hp hc, rfl⟩
  rw [hbody, mem_body_iff] at hmem
  obtain ⟨j, parent, hdue, hline⟩ := hmem
  obtain ⟨hvalue, hsummands⟩ := eq_of_line_eq hline
  cases hdue with
  | root =>
    -- the root's item may be the same, but its line is not
    have hblank : ' ' ∈ (line g i (some (label g p))).toList :=
      blank_mem_line_iff.2 (Option.some_ne_none _)
    rw [← hline] at hblank
    exact absurd rfl (blank_mem_line_iff.1 hblank)
  | child _ hc' =>
    obtain ⟨hposj, hj⟩ := hg'.range _ _ hc'
    exact ⟨j, hposj, hj, hvalue, hsummands⟩

theorem IsGraphOf.needed_of_body (hg : IsGraphOf s g) (hg' : IsGraphOf s' g')
    (hbody : body g = body g') {v : Bytes} (hv : s.Needed v) : s'.Needed v := by
  obtain ⟨i, hpos, hi, rfl⟩ := hg.exists_node hv
  obtain ⟨j, hposj, hj, hvalue, -⟩ := hg.exists_like hg' hbody hpos hi
  rw [← hvalue]
  exact hg'.needed hposj hj

/-- Nodes of one value have the same summands. Summands stand in the
line, in their order. -/
theorem IsGraphOf.summands_eq (hg : IsGraphOf s g) (hg' : IsGraphOf s' g')
    (hbody : body g = body g') {j : Nat} (hi : 0 < i ∧ i < g.size)
    (hj : 0 < j ∧ j < g'.size)
    (hvalue : g'.valueAt j = g.valueAt i) : g'.summands j = g.summands i := by
  obtain ⟨k, hposk, hk, hvaluek, hsummands⟩ :=
    hg.exists_like hg' hbody hi.1 hi.2
  have hjk : j = k := hg'.indexed.inj hj ⟨hposk, hk⟩ (hvalue.trans hvaluek.symm)
  rw [hjk, hsummands]

/-- A value is a pool member exactly if nothing is shown to make it
up. So the chart shows which of its values come from the pool. -/
theorem IsGraphOf.mem_pool_iff (hg : IsGraphOf s g) (hpos : 0 < i)
    (hi : i < g.size) :
    g.valueAt i ∈ s.pool ↔ g.summands i = [] := by
  rcases (hg.explained i hpos hi).source with
    ⟨hpool, hnone⟩ | ⟨hforeign, r, -, hsummands⟩
  · exact iff_of_true hpool hnone
  · refine iff_of_false hforeign ?_
    rw [hsummands]
    exact List.cons_ne_nil _ _

/-- Whatever explains a value in the one solution does so in the
other. It is a pool member in both, or has a record with the same
operands in both. -/
theorem IsGraphOf.exists_record (hg : IsGraphOf s g) (hg' : IsGraphOf s' g')
    (hbody : body g = body g') {v : Bytes} (hv : s.Needed v) :
    (v ∈ s'.pool ↔ v ∈ s.pool) ∧
    (v ∉ s.pool → ∃ r r', s.records.get? v = some r ∧
      s'.records.get? v = some r' ∧ r'.left = r.left ∧ r'.right = r.right) := by
  obtain ⟨i, hpos, hi, rfl⟩ := hg.exists_node hv
  obtain ⟨j, hposj, hj, hvalue, hsummands⟩ := hg.exists_like hg' hbody hpos hi
  have hpool : g.valueAt i ∈ s'.pool ↔ g.valueAt i ∈ s.pool := by
    rw [hg.mem_pool_iff hpos hi, ← hsummands,
      ← hg'.mem_pool_iff hposj hj, hvalue]
  refine ⟨hpool, fun hforeign => ?_⟩
  rcases (hg.explained i hpos hi).source with ⟨hmem, -⟩ | ⟨-, r, hr, hoperands⟩
  · exact absurd hmem hforeign
  rcases (hg'.explained j hposj hj).source with
    ⟨hmem, -⟩ | ⟨-, r', hr', hoperands'⟩
  · rw [hvalue] at hmem
    exact absurd (hpool.1 hmem) hforeign
  rw [hoperands, hoperands'] at hsummands
  rw [hvalue] at hr'
  obtain ⟨hleft, hright⟩ := List.cons.inj hsummands
  exact ⟨r, r', hr, hr', hleft, (List.cons.inj hright).1⟩

/-- A chart determines its graph, up to the numbers of the nodes: the
values, and of each value the summands in their order. So it
determines the target, the computed values, which values were needed,
and of each of them whether it is a pool member or, if not, its
record. -/
theorem chart_determines (hgraph : s.graph.outcome = .ok g)
    (hgraph' : s'.graph.outcome = .ok g') (hbody : body g = body g') :
    g'.valueAt 0 = g.valueAt 0 ∧
    g'.summands 0 = g.summands 0 ∧
    g'.valuesBelow = g.valuesBelow ∧
    (∀ i j, 0 < i ∧ i < g.size → 0 < j ∧ j < g'.size →
      g'.valueAt j = g.valueAt i →
      g'.summands j = g.summands i) ∧
    s'.target = s.target ∧
    s'.computed = s.computed ∧
    (∀ v, s'.Needed v ↔ s.Needed v) ∧
    ∀ v, s.Needed v → (v ∈ s'.pool ↔ v ∈ s.pool) ∧
      (v ∉ s.pool → ∃ r r', s.records.get? v = some r ∧
        s'.records.get? v = some r' ∧
        r'.left = r.left ∧ r'.right = r.right ∧
        (r.Made → r'.Made → r' = r)) := by
  have hg : IsGraphOf s g := isGraphOf_of_graph hgraph
  have hg' : IsGraphOf s' g' := isGraphOf_of_graph hgraph'
  have hroot : line g 0 none = line g' 0 none := by
    have hhead := congrArg List.head? hbody
    rw [head?_body, head?_body] at hhead
    exact Option.some.inj hhead
  obtain ⟨hvalue, hsummands⟩ := eq_of_line_eq hroot
  have hneeded : ∀ v, s'.Needed v ↔ s.Needed v := by
    intro v
    exact ⟨hg'.needed_of_body hg hbody.symm, hg.needed_of_body hg' hbody⟩
  refine ⟨hvalue.symm, hsummands.symm, ?_, ?_, ?_, ?_, hneeded, ?_⟩
  · ext v
    rw [hg'.mem_valuesBelow, hg.mem_valuesBelow, hneeded]
  · intro i j hi hj
    exact hg.summands_eq hg' hbody hi hj
  · rw [← hg'.target, ← hg.target, hvalue]
  · rw [← hg'.computed, ← hg.computed, hsummands]
  · intro v hv
    obtain ⟨hpool, hrecord⟩ := hg.exists_record hg' hbody hv
    refine ⟨hpool, fun hforeign => ?_⟩
    obtain ⟨r, r', hr, hr', hleft, hright⟩ := hrecord hforeign
    exact ⟨r, r', hr, hr', hleft, hright, fun h h' => h.eq h' hleft hright⟩

/-- Two pools, of which the second has a zero entry more, have one
chart for the target `3`. -/
theorem chart_determines_three : ∃ s s' g,
    (find #[3] (#[3] :: Bytes.units 1)).outcome = .ok s ∧
      (find #[3] (#[0] :: #[3] :: Bytes.units 1)).outcome = .ok s' ∧
      s.graph.outcome = .ok g ∧ s'.graph.outcome = .ok g ∧
      s'.target = s.target ∧ s'.computed = s.computed ∧ ∀ v, s'.Needed v ↔
      s.Needed v := by
  have hacc : Accepted #[3] (#[3] :: Bytes.units 1) :=
    accepted_cons_units rfl (by decide)
  have hpad :
      Padded 1 (#[3] :: Bytes.units 1) (#[0] :: #[3] :: Bytes.units 1) :=
    .zero (by decide +kernel) rfl (.refl _)
  obtain ⟨s, hs⟩ : ∃ s, (find #[3] (#[3] :: Bytes.units 1)).outcome = .ok s :=
    exists_find_cons_units rfl (by decide)
  obtain ⟨g, hgraph, -⟩ := (sound_of_find hs).exists_graph
  have hsame := sameFinding_padded hacc (by decide +kernel) hpad
  rw [hs] at hsame
  generalize (find #[3] (#[0] :: #[3] :: Bytes.units 1)).outcome = r at hsame ⊢
  cases hsame with
  | @found _ s' alike =>
    have hgraph' : s'.graph.outcome = .ok g := by
      rw [alike.graph_eq]
      exact hgraph.outcome_eq
    obtain ⟨-, -, -, -, htarget, hcomputed, hneeded, -⟩ :=
      chart_determines hgraph.outcome_eq hgraph' rfl
    exact ⟨s, s', g, hs, rfl, hgraph.outcome_eq, hgraph', htarget,
      hcomputed, hneeded⟩

end Solution

end XorSpan
