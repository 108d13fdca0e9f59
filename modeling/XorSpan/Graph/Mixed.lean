/-
Graphs whose values may be data of any kind. Strangers have their nodes
under aliases (`Roll.lean`), so the shape of the graph, and all that
depends on the shape alone, is that of a graph of bytes. What depends on
the values themselves asks the roll: a stranger has no hex text of its
own and takes no part in a sum, but bytes can often be made from it, and
then a chart can show them.

The root is not found by its value: it has no alias, and it may even be
something that changes.

Where all values are bytes, the passes are those of the graph itself
(`order_ofGraph`, `parity_ofGraph`, `reduce_ofGraph`).
-/
import XorSpan.Graph.Chart
import XorSpan.Graph.Reduction
import XorSpan.Reply
import XorSpan.Roll

namespace XorSpan

structure MixedGraph where
  graph : Graph
  roll : Roll
  /-- The value of the root. -/
  root : Datum

namespace MixedGraph

/-- A graph of bytes alone. -/
def ofGraph (g : Graph) : MixedGraph := ⟨g, .blank [], .bytes g.root.value⟩

/-- A root and nothing else, with room for the `data` still to come. -/
def ofRoot (root : Datum) (data : List Datum) : MixedGraph :=
  ⟨.ofRoot (root.bytes?.getD #[]), .blank (root :: data), root⟩

-- ================================================================= calls

/-- Hands a datum over to be looked up in a call that changes the
graph. -/
def edit (m : MixedGraph) (value : Datum) (call : Bytes → Graph.Edit) :
    MixedGraph × Reply (Nat × Bool) :=
  match m with
  | ⟨graph, roll, root⟩ =>
      match roll.enter value with
      | .error e => (⟨graph, roll, root⟩, Reply.need (.error e))
      | .ok (roll, name) =>
          let (graph, answer) := graph.edit (call name)
          (⟨graph, roll, root⟩, answer.mapError .graph)

/-- The index of a value; never that of the root. -/
def indexOf? (m : MixedGraph) (value : Datum) : Reply (Option Nat) := do
  return (← Reply.need (m.roll.name? value)).bind m.graph.indexOf?

def contains (m : MixedGraph) (value : Datum) : Reply Bool := do
  return (← Reply.need (m.roll.name? value)).any m.graph.contains

/-- The counters of the graph. The root's value is looked up for them. -/
def stats (m : MixedGraph) : Reply Graph.Stats := do
  return { m.graph.stats with targetAsValue := ← m.contains m.root }

-- ================================================================ values

def valueOf (m : MixedGraph) (i : Nat) (node : Node) : Datum :=
  if i = 0 then m.root else m.roll.datum node.value

def text (m : MixedGraph) (i : Nat) (node : Node) : Reply String :=
  let value := m.valueOf i node
  match value.bytes? with
  | some b => .ok (Node.text { node with value := b })
  | none => Reply.need (.error (value.lacks .hex))

def rootText (m : MixedGraph) : Reply String := m.text 0 m.graph.root

/-- Whether the node of a number is a leaf, and the node in a message. -/
def describe (m : MixedGraph) (number : Int) : Reply (Bool × String) := do
  let node ← (m.graph.node number).mapError .graph
  return (node.isLeaf, ← m.text ((m.graph.locate number).getD 0) node)

/-- The graph with the bytes that are made from its values. Its nodes
are not to be looked up. -/
def view (m : MixedGraph) : Except ReadError Graph := do
  let values ← m.graph.nodes.toList.zipIdx.mapM fun (node, i) =>
    (m.valueOf i node).read .copy
  let values := values.toArray
  return {
    nodes := m.graph.nodes.mapIdx fun i node =>
      { node with value := values.getD i #[] }
    index := ∅
    nonempty := by simpa using m.graph.nonempty }

-- ================================================================ passes

/-- The nodes below the root, and the root, parents first. -/
def order (m : MixedGraph) : Job (List Nat) :=
  m.graph.order.mapFault m.roll.disclose

/-- For each node whether it is reached in an odd number of ways. -/
def parity (m : MixedGraph) : Job (Array Bool) :=
  m.graph.parity.mapFault m.roll.disclose

/-- The lines of the chart between header and footer. -/
def chartBody (m : MixedGraph) : Reply (List String) := do
  return Chart.body (← m.view.mapError .reading)

/-- Writes the chart. The header stands before the values are looked
at. -/
def chart (m : MixedGraph) (footer : Bool) : Job Chart.Summary :=
  match m.view with
  | .ok g => g.chart footer
  | .error e => do
      Job.write Parameters.chartHeader
      throw (.unreadable e)

/-- Why a node cannot be looked at in a reduction: only of a leaf that
is reached in an odd number of ways is it asked whether its value is
zero. -/
def obstacle? (m : MixedGraph) (i : Nat) (node : Node) (odd : Bool) :
    Option KindError :=
  if i = 0 ∨ !node.isLeaf ∨ !odd then none
  else match m.roll.stranger? node.value with
    | none => none
    | some d => match d.isZero with
      | .error e => some e
      | .ok _ => none

def reduce (m : MixedGraph) (s : Solution) : Job Reduction := do
  let base := s.base
  let parity ← m.parity
  let r ← Job.visit .scan
    (fun r (node, i) =>
      let odd := parity.getD i false
      match m.obstacle? i node odd with
      | some e => .error (.unreadable (.kind e))
      | none => .ok (Reduction.scan base r i node odd))
    (⟨[], {}⟩ : Reduction) m.graph.nodes.toList.zipIdx
  r.close s

-- =========================================================== bytes alone

theorem disclose_ofGraph (g : Graph) : (ofGraph g).roll.disclose = id :=
  funext (Roll.disclose_eq_self _ rfl)

/-- A graph of bytes alone has the order of the graph it is. -/
theorem order_ofGraph (g : Graph) : (ofGraph g).order = g.order := by
  rw [order, disclose_ofGraph, Job.mapFault_id]
  rfl

theorem parity_ofGraph (g : Graph) : (ofGraph g).parity = g.parity := by
  rw [parity, disclose_ofGraph, Job.mapFault_id]
  rfl

theorem obstacle?_ofGraph (g : Graph) (i : Nat) (node : Node) (odd : Bool) :
    (ofGraph g).obstacle? i node odd = none := by
  simp [obstacle?, ofGraph, Roll.stranger?, Roll.blank]

/-- A graph of bytes alone reduces as the graph it is. -/
theorem reduce_ofGraph (g : Graph) (s : Solution) :
    (ofGraph g).reduce s = g.reduce s := by
  simp only [reduce, parity_ofGraph, obstacle?_ofGraph]
  rfl

end MixedGraph

end XorSpan
