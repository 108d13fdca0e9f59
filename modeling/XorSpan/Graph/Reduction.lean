/-
The reduction of a graph: the pool members whose XOR is the target. They
are the values of the leaves that are reached from the root in an odd
number of ways.

How often a leaf's value was asked for need not have that parity: below
a shared node a leaf is attached once and reached several times. The
counters say how often the two disagree.
-/
import XorSpan.Graph.Expansion
import XorSpan.Graph.Parity

namespace XorSpan

structure ReductionStats where
  /-- Leaves below the root. -/
  leaves : Nat := 0
  oddLeaves : Nat := 0
  base : Nat := 0
  /-- Leaves whose usage has another parity than the ways to them. -/
  mismatches : Nat := 0
deriving DecidableEq, Repr, Inhabited

def ReductionStats.json (s : ReductionStats) : List (String × Json) :=
  [("leaves_scanned", .int s.leaves), ("odd_leaves", .int s.oddLeaves),
   ("base_count", .int s.base), ("usage_parity_mismatches", .int s.mismatches)]

/-- The values of a reduction and its counters. -/
structure Reduction where
  values : List Bytes
  stats : ReductionStats

namespace Reduction

/-- Looks at one node; `odd` is its parity, the latest value comes
first. The root is the sum itself and never a summand. -/
def scan (base : Std.HashSet Bytes) (r : Reduction) (i : Nat)
    (node : Node) (odd : Bool) :
    Reduction :=
  if i = 0 ∨ !node.isLeaf then r
  else
    let stats := { r.stats with
      leaves := r.stats.leaves + 1
      oddLeaves := r.stats.oddLeaves + odd.toNat
      mismatches := r.stats.mismatches +
        (decide (node.usage % 2 = 1) != odd).toNat }
    if odd && !node.value.isZero && base.contains node.value then
      ⟨node.value :: r.values, stats⟩
    else { r with stats }

/-- Values in the order of their hex text. -/
def sortByHex (values : List Bytes) : List Bytes :=
  values.mergeSort fun a b => decide (a.toHex ≤ b.toHex)

/-- Sorts the values and checks that they add up to the target. -/
def close (r : Reduction) (s : Solution) : Job Reduction := do
  let values := sortByHex r.values.reverse
  Job.ofExcept (checkSum .reduced s.target values)
  Job.note s!"Reduced: {values.length} hashes"
  return ⟨values, { r.stats with base := values.length }⟩

end Reduction

/-- Reduces a graph against the solution it belongs to. -/
def Graph.reduce (g : Graph) (s : Solution) : Job Reduction := do
  let base := s.base
  let parity ← g.parity
  let r ← Job.visit .scan
    (fun r (node, i) =>
      .ok (Reduction.scan base r i node (parity.getD i false)))
    (⟨[], {}⟩ : Reduction) g.nodes.toList.zipIdx
  r.close s

end XorSpan
