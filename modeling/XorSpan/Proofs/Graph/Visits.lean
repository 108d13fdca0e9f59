/-
How many visits drawing a chart takes, and what its summary makes of
them. A visit is made for the root and for every reference from a node
that the root leads to, and for no other reason; so drawing ends, also on
a graph with cycles, after as many visits as there are such references
and one (`chart_visits`).

The measure is what is still to come (`remaining`): the visits listed,
and those that the nodes not yet opened will ask for. A visit takes one
from the list; opening a node moves its children from the second part to
the first. So every step makes it smaller by one, whatever it finds.

A visit writes one line or none. The summary does not look at the visits:
it counts brackets in the lines and references in the graph. It agrees
with them all the same (`Tallies`), as long as every reference belongs to
a node that the root leads to.
-/
import XorSpan.Proofs.Graph.Census
import XorSpan.Proofs.Graph.Leaves
import XorSpan.Proofs.Interruption

namespace XorSpan

open Relation Job

namespace Chart

variable {g : Graph} {i : Nat} {parent : Option String}

-- ================================================================= visits

open Classical in
/-- The number of references from nodes that the root leads to. -/
noncomputable def reachedReferences (g : Graph) : Nat :=
  ∑ i ∈ Finset.range g.size with ReflTransGen g.Child 0 i, (g.childrenAt i).size

/-- What each visit writes, in the order of the visits. -/
def visitLines (g : Graph) : List (List String) :=
  (Drawing.walk g).writings (Drawing.initial g)

namespace Drawing

variable {d e : Drawing} {text : String} {lines : List String}

open Classical in
/-- The nodes still to be opened. -/
noncomputable def unopened (g : Graph) (d : Drawing) : Finset Nat :=
  {i ∈ Finset.range g.size | ReflTransGen g.Child 0 i ∧
    d.opened[i]? = some false}

/-- The visits still to be made: those listed, and those that nodes
will ask for when they are opened. -/
noncomputable def remaining (g : Graph) (d : Drawing) : Nat :=
  d.visits.length + ∑ i ∈ unopened g d, (g.childrenAt i).size

/-- A node is waiting if the root leads to it and it has not been
opened. -/
theorem mem_unopened : i ∈ unopened g d ↔
    i < g.size ∧ ReflTransGen g.Child 0 i ∧ d.opened[i]? = some false := by
  classical
  unfold unopened
  rw [Finset.mem_filter, Finset.mem_range]

/-- Before the drawing there is the root to visit, and then as many
references as the nodes that it leads to have. -/
theorem remaining_initial (g : Graph) :
    remaining g (initial g) = 1 + reachedReferences g := by
  classical
  have hopened : ∀ i < g.size, (initial g).opened[i]? = some false := by
    intro i hi
    show (Array.replicate g.size false)[i]? = some false
    rw [Array.getElem?_replicate, if_pos hi]
  unfold remaining reachedReferences
  congr 1
  refine Finset.sum_congr ?_ fun _ _ => rfl
  ext i
  rw [mem_unopened, Finset.mem_filter, Finset.mem_range]
  exact ⟨fun h => ⟨h.1, h.2.1⟩, fun h => ⟨h.1, h.2, hopened i h.1⟩⟩

/-- A node that is opened is the only one that is not waiting any
more. Nodes that had been opened are not entered, so this is the only
way in which fewer wait. -/
theorem unopened_enter (h : d.opened[i]? = some false) :
    unopened g (enter g d i) = (unopened g d).erase i := by
  unfold enter
  rw [if_pos h]
  ext j
  rw [Finset.mem_erase, mem_unopened, mem_unopened]
  by_cases hj : j = i
  · subst hj
    have hlt : j < d.opened.size := (Array.getElem?_eq_some_iff.1 h).1
    simp [Array.getElem?_setIfInBounds_self_of_lt hlt]
  · simp [hj, Array.getElem?_setIfInBounds_ne (Ne.symm hj)]

/-- Entering a node does not change how many visits are still to be
made. Its references are taken from those that wait and put among the
visits. -/
theorem remaining_enter (hd : d.opened.size = g.size)
    (hi : ReflTransGen g.Child 0 i) :
    remaining g (enter g d i) = remaining g d := by
  by_cases h : d.opened[i]? = some false
  · have hlt : i < g.size := by
      rw [← hd]
      exact (Array.getElem?_eq_some_iff.1 h).1
    have hvisits : (enter g d i).visits.length =
        (g.childrenAt i).size + d.visits.length := by
      unfold enter
      rw [if_pos h, List.length_append, List.length_map, Array.length_toList]
    -- its children leave the sum and are put on the list
    have hsum := Finset.add_sum_erase (unopened g d)
      (fun i => (g.childrenAt i).size)
      (mem_unopened.2 ⟨hlt, hi, h⟩)
    unfold remaining
    rw [unopened_enter h, hvisits, ← hsum]
    omega
  · unfold enter
    rw [if_neg h]

/-- A visit made is one less to come. Entering a node for the first
time brings in its references, and these were counted as still to come
before. -/
theorem Sound.remaining_step (hd : Sound g d)
    (h : Drawing.step g d = .move e lines) :
    remaining g d = remaining g e + 1 := by
  obtain ⟨i, parent, visits, hvisits, rfl, -⟩ := step_eq_of_move h
  have hdue : Due g i parent :=
    hd.due i parent (by rw [hvisits]; exact List.mem_cons_self ..)
  have hopened : (put { d with visits } (line g i parent)).1.opened =
      d.opened := put_opened ..
  have hsize :
      (put { d with visits } (line g i parent)).1.opened.size = g.size := by
    rw [hopened, hd.size]
  rw [remaining_enter hsize hdue.reached]
  unfold remaining unopened
  rw [hopened, put_visits, hvisits, List.length_cons]
  exact Nat.add_right_comm _ 1 _

/-- As many visits are made as were still to be made. The induction is
along the drawing, from its end back. -/
theorem length_writings (h : (walk g).Ends d (.ok e)) (hd : Sound g d) :
    ((walk g).writings d).length = remaining g d := by
  induction h using Walk.Ends.induction_ok with
  | rest d hstep =>
    have hend : d.visits = [] := (eq_of_rest hstep).2
    have hnone : unopened g d = ∅ := by
      refine Finset.eq_empty_of_forall_notMem ?_
      intro i hi
      obtain ⟨-, hreached, hclosed⟩ := mem_unopened.1 hi
      exact hd.opened_of_reached hend hreached hclosed
    unfold remaining
    rw [Walk.writings_of_rest hstep, hend, hnone]
    rfl
  | move d d' lines hstep _ ih =>
    rw [Walk.writings_of_move hstep, List.length_cons, ih (hd.step hstep),
      hd.remaining_step hstep]

-- ================================================================== lines

/-- A single text is new unless it was written. -/
theorem fresh_singleton (d : Drawing) (text : String) :
    d.fresh [text] = if d.written.contains text then [] else [text] := by
  unfold fresh
  split
  · next h => simp [h]
  · next h => simp [h, List.eraseDups_cons]

/-- A visit writes one line or none. A line that was written before is
left out. -/
theorem length_le_of_move (h : step g d = .move e lines) :
    lines.length ≤ 1 := by
  obtain ⟨i, parent, visits, -, -, rfl⟩ := step_eq_of_move h
  rw [fresh_singleton]
  split <;> simp

/-- What is written has not been written before, and is written once.
The set of what was written is asked before each line. -/
theorem nodup_lines (h : (walk g).Ends d (.ok e)) :
    ((walk g).lines d).Nodup ∧ ∀ text ∈ (walk g).lines d,
    d.written.contains text = false := by
  induction h using Walk.Ends.induction_ok with
  | rest d hstep =>
    rw [Walk.lines_of_rest hstep]
    exact ⟨List.nodup_nil, List.forall_mem_nil _⟩
  | move d d' lines hstep _ ih =>
    obtain ⟨hnodup, hnew⟩ := ih
    obtain ⟨i, parent, visits, -, rfl, rfl⟩ := step_eq_of_move hstep
    have hlater : ∀ text ∈ (walk g).lines
        (enter g (put { d with visits } (line g i parent)).1 i),
        d.written.contains text = false ∧ text ≠ line g i parent := by
      intro text htext
      have hboth := hnew text htext
      rw [written_enter, wrote_put { d with visits } (line g i parent) text,
        contains_singleton, Bool.or_eq_false_iff, beq_eq_false_iff_ne] at hboth
      exact hboth
    rw [Walk.lines_of_move hstep, fresh_singleton]
    split
    · exact ⟨hnodup, fun text htext => (hlater text htext).1⟩
    · next hfresh =>
      rw [List.singleton_append, List.nodup_cons, List.forall_mem_cons]
      refine ⟨⟨fun hmem => (hlater _ hmem).2 rfl, hnodup⟩, ?_,
        fun text htext => (hlater text htext).1⟩
      exact Bool.not_eq_true _ ▸ hfresh

/-- The drawing counts the lines by whether there is a bracket in
them. A line that is left out is not counted either. -/
theorem counters_put (d : Drawing) (text : String) :
    (d.put text).1.nodeLines =
      d.nodeLines + (d.put text).2.countP (·.contains '[') ∧
      (d.put text).1.leafLines =
        d.leafLines + (d.put text).2.countP (!·.contains '[') := by
  unfold put
  split
  · exact ⟨rfl, rfl⟩
  · dsimp only
    split
    · next h =>
      rw [List.countP_singleton, List.countP_singleton, h]
      exact ⟨rfl, rfl⟩
    · next h =>
      rw [List.countP_singleton, List.countP_singleton,
        Bool.eq_false_of_not_eq_true h]
      exact ⟨rfl, rfl⟩

/-- Entering a node counts nothing. -/
theorem counters_enter (g : Graph) (d : Drawing) (i : Nat) :
    (enter g d i).nodeLines = d.nodeLines ∧
    (enter g d i).leafLines = d.leafLines := by
  unfold enter
  split <;> exact ⟨rfl, rfl⟩

/-- So in the end the two counters have grown by the lines with a
bracket in them and by those without. -/
theorem counters_of_ends (h : (walk g).Ends d (.ok e)) :
    e.nodeLines = d.nodeLines + ((walk g).lines d).countP (·.contains '[') ∧
      e.leafLines = d.leafLines +
        ((walk g).lines d).countP (!·.contains '[') := by
  induction h using Walk.Ends.induction_ok with
  | rest d hstep =>
    rw [Walk.lines_of_rest hstep, (eq_of_rest hstep).1]
    exact ⟨rfl, rfl⟩
  | move d d' lines hstep _ ih =>
    obtain ⟨i, parent, visits, -, rfl, hlines⟩ := step_eq_of_move hstep
    obtain ⟨hnodes, hleaves⟩ := counters_put { d with visits } (line g i parent)
    rw [lines_put] at hnodes hleaves
    obtain ⟨hnodes', hleaves'⟩ :=
      counters_enter g (put { d with visits } (line g i parent)).1 i
    obtain ⟨ihnodes, ihleaves⟩ := ih
    rw [Walk.lines_of_move hstep, List.countP_append, List.countP_append,
      ihnodes, ihleaves, hnodes', hleaves', hnodes, hleaves, hlines,
      Nat.add_assoc, Nat.add_assoc]
    exact ⟨rfl, rfl⟩

end Drawing

-- =============================================================== the body

/-- In the body of a chart no line stands twice. -/
theorem nodup_body (g : Graph) : (body g).Nodup := by
  obtain ⟨e, hends, -, -⟩ := Drawing.exists_ends_ok g
  exact (Drawing.nodup_lines hends).1

/-- The lines of all visits together are the body. -/
theorem flatten_visitLines (g : Graph) : (visitLines g).flatten = body g := by
  obtain ⟨e, hends, -, -⟩ := Drawing.exists_ends_ok g
  exact hends.flatten_writings

/-- There is a visit for the root and one for each reference from a
node that it leads to. -/
theorem length_visitLines (g : Graph) :
    (visitLines g).length = 1 + reachedReferences g := by
  obtain ⟨e, hends, -, -⟩ := Drawing.exists_ends_ok g
  rw [← Drawing.remaining_initial]
  exact Drawing.length_writings hends (Drawing.sound_initial g)

/-- Each visit has one line at most. -/
theorem length_le_of_mem_visitLines (g : Graph) :
    ∀ lines ∈ visitLines g, lines.length ≤ 1 :=
  Walk.forall_mem_writings Drawing.length_le_of_move _

/-- The root is visited first, when nothing has been written. So its
line is the first of the body. -/
theorem head?_body (g : Graph) : (body g).head? = some (line g 0 none) := by
  let d := { Drawing.initial g with visits := [] }
  have hstep : (Drawing.walk g).step (Drawing.initial g) =
      .move (Drawing.enter g (d.put (line g 0 none)).1 0)
        (d.put (line g 0 none)).2 := rfl
  have hfresh : ¬d.written.contains (line g 0 none) = true := by
    show ¬(∅ : Std.HashSet String).contains (line g 0 none) = true
    rw [Std.HashSet.contains_empty]
    exact Bool.false_ne_true
  unfold body
  rw [Walk.lines_of_move hstep, Drawing.lines_put,
    Drawing.fresh_singleton, if_neg hfresh]
  rfl

-- ============================================================= the summary

/-- The lines of the nodes with such children, under whatever labels. -/
def linesWith (g : Graph) (P : Array Nat → Prop) : Set String :=
  {text | ∃ i parent, Due g i parent ∧ P (g.childrenAt i) ∧
    line g i parent = text}

/-- The root leads to every node. -/
def Rooted (g : Graph) : Prop := ∀ i < g.size, ReflTransGen g.Child 0 i

/-- A summary that agrees with the lines and the visits. -/
structure Summary.Tallies (g : Graph) (s : Summary) : Prop where
  lines : s.lines = 1 + (body g).length
  nodeLines : s.nodeLines = (linesWith g (· ≠ #[])).ncard
  leafLines : s.leafLines = (linesWith g (· = #[])).ncard
  both : s.nodeLines + s.leafLines = (body g).length
  suppressed : Rooted g → s.suppressed = (visitLines g).countP List.isEmpty

/-- A line has a bracket exactly if it is that of a node with
children. That is how the counters tell the two kinds of lines apart. -/
theorem contains_line_iff (hdue : Due g i parent) :
    (line g i parent).contains '[' = true ↔ g.childrenAt i ≠ #[] := by
  constructor
  · intro hbracket hleaf
    rw [contains_line_of_leaf hdue hleaf] at hbracket
    cases hbracket
  · exact contains_line_of_inner

/-- No line is written twice, so counting lines that pass a test is
counting the set of them. -/
theorem ncard_linesWith {P : Array Nat → Prop} {p : String → Bool}
    (hp : ∀ {i parent}, Due g i parent →
      (p (line g i parent) = true ↔ P (g.childrenAt i))) :
    (linesWith g P).ncard = (body g).countP p := by
  classical
  have hset : linesWith g P = (((body g).filter p).toFinset : Set String) := by
    ext text
    rw [Finset.mem_coe, List.mem_toFinset, List.mem_filter, mem_body_iff]
    constructor
    · rintro ⟨i, parent, hdue, hP, rfl⟩
      exact ⟨⟨i, parent, hdue, rfl⟩, (hp hdue).2 hP⟩
    · rintro ⟨⟨i, parent, hdue, rfl⟩, hpass⟩
      exact ⟨i, parent, hdue, (hp hdue).1 hpass, rfl⟩
  rw [hset, Set.ncard_coe_finset,
    List.toFinset_card_of_nodup ((nodup_body g).filter p),
    List.countP_eq_length_filter]

/-- Where the root leads to every node, all references are visited. It
is so for every graph that comes of a solution. -/
theorem reachedReferences_of_rooted (h : Rooted g) :
    reachedReferences g = g.stats.edges := by
  classical
  show _ = g.nodes.foldl (fun n node => n + node.children.size) 0
  unfold reachedReferences
  rw [Solution.foldl_nodes,
    Finset.filter_true_of_mem fun i hi => h i (Finset.mem_range.1 hi)]
  refine Finset.sum_congr rfl ?_
  intro i _
  unfold Graph.summands
  rw [List.length_map, Array.length_toList]

/-- Each visit has a line or is one without. Where the root leads to
every node, those without are what the summary calls suppressed. -/
theorem length_eq_of_le_one (visits : List (List String))
    (h : ∀ lines ∈ visits, lines.length ≤ 1) :
    visits.length = visits.flatten.length + visits.countP List.isEmpty := by
  induction visits with
  | nil => rfl
  | cons lines visits ih =>
    obtain ⟨hlines, hvisits⟩ := List.forall_mem_cons.1 h
    rw [List.length_cons, List.flatten_cons, List.length_append,
      List.countP_cons, ih hvisits]
    match lines, hlines with
    | [], _ => simp; omega
    | [_], _ => simp; omega

/-- The summary of a drawing that came to its end counts what it says
it counts. -/
theorem tallies_summary {d : Drawing}
    (h : (Drawing.walk g).Ends (Drawing.initial g) (.ok d)) :
    (d.summary g).Tallies g := by
  obtain ⟨hnodes, hleaves⟩ := Drawing.counters_of_ends h
  have hnodes : d.nodeLines = (body g).countP (·.contains '[') :=
    hnodes.trans (Nat.zero_add _)
  have hleaves : d.leafLines = (body g).countP (!·.contains '[') :=
    hleaves.trans (Nat.zero_add _)
  have hboth : d.nodeLines + d.leafLines = (body g).length := by
    have hsplit := List.length_eq_countP_add_countP
      (·.contains '[') (l := body g)
    simp only [Bool.not_eq_true, Bool.decide_eq_false] at hsplit
    rw [hnodes, hleaves, hsplit]
  refine ⟨?_, ?_, ?_, hboth, ?_⟩
  · show d.nodeLines + d.leafLines + 1 = _
    rw [hboth, Nat.add_comm]
  · exact hnodes.trans (ncard_linesWith contains_line_iff).symm
  · refine hleaves.trans (ncard_linesWith ?_).symm
    intro i parent hdue
    rw [Bool.not_eq_true', ← Bool.not_eq_true, contains_line_iff hdue, not_not]
  · intro hrooted
    have hvisits := length_eq_of_le_one _ (length_le_of_mem_visitLines g)
    rw [length_visitLines, flatten_visitLines,
      reachedReferences_of_rooted hrooted] at hvisits
    show 1 + g.stats.edges - (d.nodeLines + d.leafLines) = _
    rw [hboth]
    omega

end Chart

namespace Graph

open Chart

/-- Drawing a graph, cyclic or not, takes a visit for each reference
from a node that the root leads to, and one for the root. The lines
are those of the visits, none of them twice, the root's first; the
summary agrees with them, and the footer with the summary. The root of
the graph of a solution leads to every node. -/
theorem chart_visits (g : Graph) (footer : Bool) :
    PollsTimes (g.chart footer) (visitLines g).length ∧
    (visitLines g).length = 1 + reachedReferences g ∧
    (visitLines g).flatten = body g ∧
    (∀ lines ∈ visitLines g, lines.length ≤ 1) ∧
    (body g).Nodup ∧
    (body g).head? = some (line g 0 none) ∧
    (∀ text, text ∈ body g ↔ text = line g 0 none ∨
      ∃ p c, ReflTransGen g.Child 0 p ∧ c ∈ g.childrenAt p ∧
        text = line g c (some (label g p))) ∧
    (∃ summary, (g.chart footer).outcome = .ok summary ∧ summary.Tallies g ∧
      linesUnder (g.chart footer) .never =
        Parameters.chartHeader :: (body g ++
          if footer then [s!"{Parameters.chartComment} lines: {summary.lines}"]
            else [])) ∧
    ∀ s : Solution, s.graph.outcome = .ok g → Rooted g := by
  obtain ⟨d, hends, -, -⟩ := Drawing.exists_ends_ok g
  obtain ⟨drawing, hplay, hwritten, hpolls⟩ := exists_drawingScript hends footer
  refine ⟨?_, length_visitLines g, flatten_visitLines g,
    length_le_of_mem_visitLines g, nodup_body g, head?_body g, ?_,
    ⟨d.summary g, ?_, tallies_summary hends, ?_⟩, ?_⟩
  · rw [hplay, visitLines, ← hpolls, ← polls_chartScript]
    exact pollsTimes_play _ _
  · intro text
    rw [mem_body_iff]
    constructor
    · rintro ⟨i, parent, hdue, rfl⟩
      cases hdue with
      | root => exact .inl rfl
      | child hi hc => exact .inr ⟨_, _, hi, hc, rfl⟩
    · rintro (rfl | ⟨p, c, hp, hc, rfl⟩)
      · exact ⟨0, none, .root, rfl⟩
      · exact ⟨c, _, .child hp hc, rfl⟩
  · rw [hplay]
    exact Scripted.outcome_eq ⟨_, rfl⟩
  · rw [hplay, linesUnder_play, passed_never, ← hwritten]
    show _ :: written (drawing ++
        (footing footer (d.summary g).lines).map .write) = _
    rw [written_append, written_map_write]
    rfl
  · intro s hs
    exact (Solution.isGraphOf_of_graph hs).reached

end Graph

end XorSpan
