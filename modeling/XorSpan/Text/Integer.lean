/-
Integers as people type them: an optional sign and decimal digits of any
script, with blanks around them and single underscores between digits
allowed. The information separators do not count as blanks here. A number
of more than 4300 digits is refused.
-/
import XorSpan.Text.Blank

namespace XorSpan.Text

/-- The zeros of the decimal digits of all scripts in Unicode 14; the
other nine follow each. -/
def decimalZeros : List Nat :=
  [0x30, 0x660, 0x6f0, 0x7c0, 0x966, 0x9e6, 0xa66, 0xae6, 0xb66, 0xbe6, 0xc66,
   0xce6, 0xd66, 0xde6, 0xe50, 0xed0, 0xf20, 0x1040, 0x1090, 0x17e0, 0x1810,
   0x1946, 0x19d0, 0x1a80, 0x1a90, 0x1b50, 0x1bb0, 0x1c40, 0x1c50, 0xa620,
   0xa8d0, 0xa900, 0xa9d0, 0xa9f0, 0xaa50, 0xabf0, 0xff10, 0x104a0, 0x10d30,
   0x11066, 0x110f0, 0x11136, 0x111d0, 0x112f0, 0x11450, 0x114d0, 0x11650,
   0x116c0, 0x11730, 0x118e0, 0x11950, 0x11c50, 0x11d50, 0x11da0, 0x16a60,
   0x16ac0, 0x16b50, 0x1d7ce, 0x1d7d8, 0x1d7e2, 0x1d7ec, 0x1d7f6, 0x1e140,
   0x1e2f0, 0x1e950, 0x1fbf0]

/-- What a decimal digit of any script stands for. -/
def digitValue? (c : Char) : Option Nat :=
  (decimalZeros.find? fun first => first ≤ c.toNat && c.toNat < first + 10).map
    (c.toNat - ·)

def isDecimal (c : Char) : Bool := (digitValue? c).isSome

/-- The most digits that a number may have. -/
def digitLimit : Nat := 4300

/-- Blank around a number. -/
def isMargin (c : Char) : Bool :=
  isBlank c && !(0x1c ≤ c.toNat && c.toNat ≤ 0x1f)

/-- Reads digits behind `n`, the value of the `count` digits before
them, the last of which stands right in front. -/
def readDigits (n count : Nat) : List Char → Option Nat
  | [] => if count ≤ digitLimit then some n else none
  | '_' :: c :: rest =>
      match digitValue? c with
      | some d => readDigits (n * 10 + d) (count + 1) rest
      | none => none
  | c :: rest =>
      match digitValue? c with
      | some d => readDigits (n * 10 + d) (count + 1) rest
      | none => none

def natural? : List Char → Option Nat
  | [] => none
  | c :: rest =>
      match digitValue? c with
      | some d => readDigits d 1 rest
      | none => none

def integer? (text : String) : Option Int :=
  match
    ((text.toList.dropWhile isMargin).reverse.dropWhile isMargin).reverse with
  | '-' :: digits => (natural? digits).map fun n => -(n : Int)
  | '+' :: digits => (natural? digits).map Int.ofNat
  | digits => (natural? digits).map Int.ofNat

/-- A text that begins like an option but is a negative number: a
minus sign and digits, perhaps with a decimal point before the last of
them. A line feed at the end is overlooked. -/
def looksNegative (text : String) : Bool :=
  match text.toList with
  | '-' :: rest =>
      let rest := if rest.getLast? = some '\n' then rest.dropLast else rest
      match rest.dropWhile isDecimal with
      | [] => !rest.isEmpty
      | '.' :: fraction => !fraction.isEmpty && fraction.all isDecimal
      | _ => false
  | _ => false

end XorSpan.Text
