/-
Records: how a derived value came about. A record names the two values
whose XOR it is.
-/
import XorSpan.Fault

namespace XorSpan

/-- `left` XOR `right` is `result`, if the record was made by
`Record.make`. -/
structure Record where
  left : Bytes
  right : Bytes
  result : Bytes
deriving DecidableEq, Hashable, Repr, Inhabited

namespace Record

/-- The record of three values of one length, the third the XOR of the
others. -/
def make (left right result : Bytes) : Except Fault Record :=
  if left.size ≠ right.size ∨ right.size ≠ result.size then
    .error (.defect .combination
      (.operandLengths left.size right.size result.size))
  else if left.xor right ≠ result then
    .error (.defect .combination (.operandSum left right result))
  else .ok ⟨left, right, result⟩

/-- The record in a message. -/
def text (r : Record) : String :=
  s!"CombinationRecord({r.left.toHex} ^ {r.right.toHex} = {r.result.toHex})"

end Record

end XorSpan
