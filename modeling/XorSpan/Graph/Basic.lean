/-
Graphs of values: which values a value is the XOR of, and so on down.
Equal values share one node, so a graph is a tree with its common
subtrees drawn once.

Nodes are addressed by their index in the order they were made. Node 0
is the root; it stands for the target as the sum of its children and is
never found by its value, so the target's value may turn up again below
the root as a node of its own. Every other node is found by its value.
A node counts how often its value was asked for.
-/
import XorSpan.Bytes.Hex
import XorSpan.Capacity
import XorSpan.Json.Basic
import Std.Data.HashMap

namespace XorSpan

structure Node where
  value : Bytes
  /-- Indices of the values it is the XOR of, in order of attachment. -/
  children : Array Nat := #[]
  /-- How often the value was asked for, the making of the node
  included. -/
  usage : Nat := 1
deriving DecidableEq, Repr, Inhabited

namespace Node

/-- Nothing is known to make this value up. -/
def isLeaf (n : Node) : Bool := n.children.isEmpty

def text (n : Node) : String :=
  let children := ", ".intercalate (n.children.toList.map toString)
  s!"ProvenanceNode({n.value.toHex}, children=[{children}], usage={n.usage})"

end Node

structure Graph where
  nodes : Array Node
  /-- The indices of the nodes other than the root, by value. -/
  index : Std.HashMap Bytes Nat
  nonempty : 0 < nodes.size

inductive GraphError where
  /-- There is no node of that number. -/
  | noSuchNode (number : Int)
deriving DecidableEq, Repr

def GraphError.message : GraphError → String
  | .noSuchNode number =>
      if Capacity.counts64 number then "list index out of range"
      else CapacityError.index.message

namespace Graph

/-- A root and nothing else. -/
def ofRoot (value : Bytes) : Graph := ⟨#[{ value }], ∅, by simp⟩

instance : Inhabited Graph := ⟨ofRoot #[]⟩

def size (g : Graph) : Nat := g.nodes.size

def root (g : Graph) : Node :=
  have := g.nonempty
  g.nodes[0]

def valueAt (g : Graph) (i : Nat) : Bytes :=
  (g.nodes[i]?.map Node.value).getD #[]

def childrenAt (g : Graph) (i : Nat) : Array Nat :=
  (g.nodes[i]?.map Node.children).getD #[]

/-- The index of a value; never that of the root. -/
def indexOf? (g : Graph) (value : Bytes) : Option Nat := g.index[value]?

def contains (g : Graph) (value : Bytes) : Bool := g.index.contains value

-- ================================================================= edits

def add (g : Graph) (value : Bytes) : Graph :=
  let i := g.nodes.size
  ⟨g.nodes.push { value }, g.index.insert value i, by simp⟩

/-- Changes a node, if there is one of that number. -/
def modify (g : Graph) (i : Nat) (f : Node → Node) : Graph where
  nodes := g.nodes.modify i f
  index := g.index
  nonempty := by simpa using g.nonempty

/-- Asks for a value: counts at its node, which is made if there is
none. Also says which node it is and whether it is new. -/
def getOrAdd (g : Graph) (value : Bytes) : Graph × Nat × Bool :=
  match g.indexOf? value with
  | some i => (g.modify i fun n => { n with usage := n.usage + 1 }, i, false)
  | none =>
      let i := g.size
      (g.add value, i, true)

/-- Asks for a value and makes its node a child of `parent`. -/
def attachTo (g : Graph) (parent : Nat) (value : Bytes) : Graph × Nat × Bool :=
  let (g, i, added) := g.getOrAdd value
  (g.modify parent fun n => { n with children := n.children.push i }, i, added)

/-- The node that a number stands for: numbers from 0 on count from
the first node, negative ones from the last back. -/
def locate (g : Graph) (number : Int) : Option Nat :=
  let i := if number < 0 then number + g.size else number
  if 0 ≤ i ∧ i < g.size then some i.toNat else none

def node (g : Graph) (number : Int) : Except GraphError Node :=
  match (g.locate number).bind (g.nodes[·]?) with
  | some n => .ok n
  | none => .error (.noSuchNode number)

/-- Asks for a value and makes its node a child of the node that
`parent` stands for. The value is asked for first: if there is no such
parent, the value has been counted, or its node made, all the same. -/
def attach (g : Graph) (parent : Int) (value : Bytes) :
    Graph × Except GraphError (Nat × Bool) :=
  let (g, i, added) := g.getOrAdd value
  match g.locate parent with
  | some p =>
      (g.modify p fun n => { n with children := n.children.push i },
        .ok (i, added))
  | none => (g, .error (.noSuchNode parent))

inductive Edit where
  | getOrAdd (value : Bytes)
  | attach (parent : Int) (value : Bytes)

/-- What a call makes of a graph, and its answer. -/
def edit (g : Graph) : Edit → Graph × Except GraphError (Nat × Bool)
  | .getOrAdd value =>
      let (g, i, added) := g.getOrAdd value
      (g, .ok (i, added))
  | .attach parent value => g.attach parent value

/-- The graph after a sequence of calls, failed ones included. -/
def editAll (g : Graph) (edits : List Edit) : Graph :=
  edits.foldl (fun g e => (g.edit e).1) g

-- ============================================================== counters

structure Stats where
  nodes : Nat
  edges : Nat
  leaves : Nat
  /-- Nodes with children. -/
  expanded : Nat
  /-- Nodes asked for more than once. -/
  shared : Nat
  /-- The root's value also has a node of its own. -/
  targetAsValue : Bool
deriving DecidableEq, Repr

def stats (g : Graph) : Stats :=
  let leaves := g.nodes.countP Node.isLeaf
  { nodes := g.size
    edges := g.nodes.foldl (fun n node => n + node.children.size) 0
    leaves := leaves
    expanded := g.size - leaves
    shared := g.nodes.countP (·.usage > 1)
    targetAsValue := g.contains g.root.value }

def Stats.json (s : Stats) : List (String × Json) :=
  [("node_count", .int s.nodes), ("edge_count", .int s.edges),
    ("leaf_count", .int s.leaves),
   ("expanded_count", .int s.expanded), ("shared_count", .int s.shared),
   ("target_as_value", .bool s.targetAsValue)]

end Graph

end XorSpan
