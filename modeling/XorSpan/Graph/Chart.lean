/-
The chart of a graph: a flowchart text with a line for each reference
from a parent to a child.

  flowchart TD
  ROOT[ROOT=A^B]
  A[A=C^D] --> ROOT
  C --> A
  …
  %% lines: 6

A node with children shows them in brackets, a leaf is its value alone;
every line but the root's names the parent. The optional last line counts
the lines above it.

The chart is drawn depth first, children in order of attachment. No line
is written twice, and a node's children are visited only the first time
the node is: by the second time all lines below it have been written.
-/
import XorSpan.Graph.Basic
import XorSpan.Walk
import Std.Data.HashSet

namespace XorSpan

namespace Chart

-- ================================================================= lines

def label (g : Graph) (i : Nat) : String := (g.valueAt i).toHex

/-- A node as a line shows it. -/
def item (g : Graph) (i : Nat) : String :=
  let children := (g.childrenAt i).toList
  if children.isEmpty then label g i
  else label g i ++ "[" ++ label g i ++ "=" ++
    "^".intercalate (children.map (label g)) ++ "]"

/-- The line of a node under a parent's label, or alone. -/
def line (g : Graph) (i : Nat) : Option String → String
  | none => item g i
  | some parent => item g i ++ " --> " ++ parent

-- =============================================================== drawing

structure Drawing where
  /-- Visits still to be made, each with the parent's label, the next one
  first. -/
  visits : List (Nat × Option String)
  written : Std.HashSet String
  /-- The nodes whose children have been put among the visits. -/
  opened : Array Bool
  /-- Lines written for nodes with children. -/
  nodeLines : Nat
  leafLines : Nat

namespace Drawing

/-- Only the root to be visited. -/
def initial (g : Graph) : Drawing :=
  ⟨[(0, none)], ∅, Array.replicate g.size false, 0, 0⟩

/-- Writes a line unless it has been written before. -/
def put (d : Drawing) (text : String) : Drawing × List String :=
  if d.written.contains text then (d, [])
  else
    let d := { d with written := d.written.insert text }
    if text.contains '[' then ({ d with nodeLines := d.nodeLines + 1 }, [text])
    else ({ d with leafLines := d.leafLines + 1 }, [text])

/-- Puts the children of a node that has not been opened before in
front of the other visits. -/
def enter (g : Graph) (d : Drawing) (i : Nat) : Drawing :=
  if d.opened[i]? = some false then
    let visits := (g.childrenAt i).toList.map fun child =>
      (child, some (label g i))
    { d with
      visits := visits ++ d.visits, opened := d.opened.setIfInBounds i true }
  else d

def step (g : Graph) (d : Drawing) : Stride Drawing :=
  match d.visits with
  | [] => .rest d
  | (i, parent) :: visits =>
      let (d, lines) := put { d with visits } (line g i parent)
      .move (enter g d i) lines

def closed (opened : Array Bool) : Nat := opened.countP (! ·)

theorem closed_setIfInBounds_lt {opened : Array Bool} {i : Nat}
    (h : opened[i]? = some false) :
    closed (opened.setIfInBounds i true) < closed opened := by
  unfold closed
  obtain ⟨hi, hf⟩ := Array.getElem?_eq_some_iff.1 h
  have hpos : 0 < opened.countP (! ·) :=
    Array.countP_pos_iff.2 ⟨opened[i], Array.getElem_mem hi, by simp [hf]⟩
  rw [Array.setIfInBounds, dif_pos hi, Array.countP_set, hf]
  show opened.countP (! ·) - 1 + 0 < opened.countP (! ·)
  omega

theorem put_opened (d : Drawing) (text : String) :
    (d.put text).1.opened = d.opened := by
  unfold put
  split
  · rfl
  · simp only
    split <;> rfl

theorem put_visits (d : Drawing) (text : String) :
    (d.put text).1.visits = d.visits := by
  unfold put
  split
  · rfl
  · simp only
    split <;> rfl

theorem rank_step_lt {g : Graph} {d e : Drawing} {lines : List String}
    (h : d.step g = .move e lines) :
    RankLess (closed e.opened, e.visits.length)
      (closed d.opened, d.visits.length) := by
  unfold step at h
  split at h
  · cases h
  · next i parent visits hv =>
    simp only [Stride.move.injEq] at h
    obtain ⟨rfl, -⟩ := h
    unfold enter
    rw [put_opened, put_visits]
    split
    · next hi => exact Prod.Lex.left _ _ (closed_setIfInBounds_lt hi)
    · rw [put_opened, put_visits, hv]
      exact Prod.Lex.right _ (by simp)

def walk (g : Graph) : Walk Drawing where
  stage := .chart
  step := step g
  rank d := (closed d.opened, d.visits.length)
  descends := rank_step_lt

end Drawing

/-- The body of the chart: the lines between header and footer. -/
def body (g : Graph) : List String := (Drawing.walk g).lines (Drawing.initial g)

structure Summary where
  /-- Header included, footer not. -/
  lines : Nat
  nodeLines : Nat
  leafLines : Nat
  /-- References that share their line with an earlier one. -/
  suppressed : Nat
deriving DecidableEq, Repr

def Summary.json (s : Summary) : List (String × Json) :=
  [("line_count", .int s.lines), ("node_lines", .int s.nodeLines),
   ("leaf_lines", .int s.leafLines),
   ("duplicates_suppressed", .int s.suppressed)]

end Chart

/-- Writes the chart of a graph, with or without the footer. -/
def Graph.chart (g : Graph) (footer : Bool) : Job Chart.Summary := do
  Job.write Parameters.chartHeader
  let d ← (Chart.Drawing.walk g).run (Chart.Drawing.initial g)
  let body := d.nodeLines + d.leafLines
  if footer then Job.write s!"{Parameters.chartComment} lines: {body + 1}"
  return ⟨body + 1, d.nodeLines, d.leafLines, 1 + g.stats.edges - body⟩

end XorSpan
