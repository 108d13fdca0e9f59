/-
XOR sums of lists of values.

Sums are taken on words: each value is turned into its word, the words
are XORed, and the total is written back at the width asked for. The
empty list sums to zero at every width. Pairs of equal values cancel,
which is what `oddOnes` uses: it keeps one copy of each value that
occurs an odd number of times and leaves the sum as it is.
-/
import XorSpan.Bytes.Word
import XorSpan.Table

namespace XorSpan.Bytes

/-- XOR of two values of one length. -/
def xor? (a b : Bytes) : Except WordError Bytes :=
  if a.size = b.size then ofWord? (Int.ofNat (a.toWord ^^^ b.toWord)) a.size
  else .error (.unequalLengths a.size b.size)

/-- Adds values to `word` one after the other; `index` numbers them.
The first value that is not `width` bytes long ends the sum. -/
def sumFrom (width : Int) :
    (index word : Nat) → List Bytes → Except WordError Nat
  | _, word, [] => .ok word
  | index, word, v :: vs =>
      if (v.size : Int) = width then
        sumFrom width (index + 1) (word ^^^ v.toWord) vs
      else .error (.wrongLength index v.size width)

/-- The XOR of all values, each of which has to be `width` bytes long. -/
def sum (values : List Bytes) (width : Int) : Except WordError Bytes := do
  let word ← sumFrom width 0 0 values
  ofWord? (Int.ofNat word) width

/-- The values that occur an odd number of times, once each, in the
order of their first appearance. -/
def oddOnes (values : List Bytes) : List Bytes :=
  (Table.tally values).toList.filterMap fun (v, count) =>
    if count % 2 = 1 then some v else none

end XorSpan.Bytes
