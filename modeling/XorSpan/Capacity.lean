/-
What the machine can hold. Lengths and counts that callers ask for are
whole numbers of any size; the numbers that the machine counts with have
32 or 64 bits, a sign among them, and memory ends long before those do.
A request that goes beyond is refused before anything is made.

Only what callers ask for is checked. A value that is already there has
found its room.
-/

namespace XorSpan

/-- What there is no room for. -/
inductive CapacityError where
  /-- A number of bits that 32 bits do not count. -/
  | bitCount
  /-- A number of bytes that 64 bits do not count. -/
  | byteCount
  /-- A value that 64 bits do not count together with its header. -/
  | value
  /-- A word of which 64 bits do not count the bytes. -/
  | word
  /-- A number that 64 bits do not count. -/
  | index
  /-- Anything else that memory does not hold. -/
  | memory
deriving DecidableEq, Repr

def CapacityError.message : CapacityError → String
  | .bitCount => "Python int too large to convert to C int"
  | .byteCount => "Python int too large to convert to C ssize_t"
  | .value => "byte string is too large"
  | .word => "too many digits in integer"
  | .index => "cannot fit 'int' into an index-sized integer"
  | .memory => ""

namespace Capacity

/-- The first number that 32 bits do not count up to. -/
def end32 : Int := 0x80000000

/-- The first number that 64 bits do not count up to. -/
def end64 : Int := 0x8000000000000000

/-- The first number of bytes that is more than memory. -/
def memoryEnd : Int := 0x100000000

/-- 64 bits count up, or down, to the number. -/
def counts64 (n : Int) : Bool := -end64 ≤ n && n < end64

/-- There is room for a value of `length` bytes, behind a header of
33. -/
def checkValue (length : Int) : Except CapacityError Unit :=
  if length ≥ end64 then .error .byteCount
  else if length + 33 ≥ end64 then .error .value
  else if length ≥ memoryEnd then .error .memory
  else .ok ()

/-- There is room for the word in which only bit `k` is set. Words are
held in digits of 30 bits, four bytes each, behind a header of 24. One
digit more than hold the bits is asked for if the bit is not the
lowest of its digit. -/
def checkBit (k : Int) : Except CapacityError Unit :=
  let bytes := 4 * (k / 30 + if k % 30 = 0 then 1 else 2)
  if bytes + 24 ≥ end64 then .error .word
  else if bytes ≥ memoryEnd then .error .memory
  else .ok ()

/-- `length` bytes can be drawn at once by the number of their bits. -/
def checkDraw (length : Int) : Except CapacityError Unit :=
  if 8 * length ≥ end32 then .error .bitCount else .ok ()

end Capacity

end XorSpan
