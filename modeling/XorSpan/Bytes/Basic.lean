/-
Byte values: the things a pool holds, a target is, and a solution adds
up. A value is an array of bytes of any length; everything that follows
compares values byte by byte and adds them by XOR.

This file holds the type and what every other layer uses: the zero
test, bytewise XOR, and the search for a value of another length.
-/

namespace XorSpan

/-- A byte value of any length. -/
abbrev Bytes := Array UInt8

namespace Bytes

/-- Every byte is zero; the empty value counts as zero. -/
def isZero (b : Bytes) : Bool := b.all (· == 0)

def zeros (n : Nat) : Bytes := Array.replicate n 0

/-- Bytewise XOR, as long as the shorter operand. -/
def xor (a b : Bytes) : Bytes := Array.zipWith (· ^^^ ·) a b

/-- The first of the values that is not `n` bytes long, by its index
and its length. -/
def misfit? (n : Nat) (values : List Bytes) : Option (Nat × Nat) :=
  match values.findIdx? (fun v => v.size != n) with
  | none => none
  | some i => some (i, (values[i]?.map Array.size).getD 0)

@[simp] theorem size_zeros (n : Nat) : (zeros n).size = n := by
  simp [zeros]

@[simp] theorem size_xor (a b : Bytes) :
    (xor a b).size = min a.size b.size := by
  simp [xor]

end Bytes

end XorSpan
