/-
The parity of the number of ways down from the root to a node, where two
references to one child are two ways. A value that is reached in an even
number of ways cancels out of the sum at the root.

Parities are handed down parents first: a node that is reached in an odd
number of ways changes the parity of each of its children, once for every
reference.
-/
import XorSpan.Graph.Order

namespace XorSpan.Graph

/-- Only the root is known to be reached: in one way. -/
def rootParity (g : Graph) : Array Bool :=
  (Array.replicate g.size false).setIfInBounds 0 true

def flip (parity : Array Bool) (i : Nat) : Array Bool := parity.modify i (! ·)

/-- Hands a node's parity down to its children. -/
def handDown (g : Graph) (parity : Array Bool) (i : Nat) : Array Bool :=
  if parity.getD i false then (g.childrenAt i).foldl flip parity else parity

/-- For each node whether it is reached in an odd number of ways. -/
def parity (g : Graph) : Job (Array Bool) := do
  let order ← g.order
  Job.visit .parity (fun parity i => .ok (g.handDown parity i))
    g.rootParity order

end XorSpan.Graph
