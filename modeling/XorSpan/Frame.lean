/-
The frame of a list of values: a self-delimiting byte sequence that
commits to the number of values, their common length, their order and
their bytes.

  tag     4 bytes, "HSL1"
  count   4 bytes, big-endian
  length  2 bytes, big-endian, 0 for the empty list
  values  one after the other

Only lists of equally long values have a frame, and only while count and
length fit their fields.
-/
import XorSpan.Bytes.Word

namespace XorSpan

/-- Why a list of values has no frame. -/
inductive FrameError where
  /-- A value is not as long as the first. -/
  | wrongLength (index actual expected : Nat)
  | tooLong (length : Nat)
  | tooMany (count : Nat)
deriving DecidableEq, Repr

def FrameError.message : FrameError → String
  | .wrongLength index actual expected =>
      s!"Value {index} has length {actual}, expected {expected}"
  | .tooLong length => s!"Value length too large: {length}"
  | .tooMany count => s!"Too many values: {count}"

namespace Frame

/-- The four letters that open a frame. -/
def tag : String := "HSL1"

/-- The length of the first value, 0 if there is none. -/
def width (values : List Bytes) : Nat := (values.head?.map Array.size).getD 0

/-- The bytes of the frame of values of length `n`. -/
def bytes (n : Nat) (values : List Bytes) : List UInt8 :=
  tag.toUTF8.toList ++ (Bytes.ofWord 4 values.length).toList ++
    (Bytes.ofWord 2 n).toList ++ values.flatMap Array.toList

def encode (values : List Bytes) : Except FrameError (List UInt8) :=
  let n := width values
  match Bytes.misfit? n values with
  | some (i, actual) => .error (.wrongLength i actual n)
  | none =>
      if n > 0xffff then .error (.tooLong n)
      else if values.length > 0xffffffff then .error (.tooMany values.length)
      else .ok (bytes n values)

end Frame

end XorSpan
