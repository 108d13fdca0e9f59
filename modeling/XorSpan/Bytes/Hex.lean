/-
Hex text of byte values: two digits to a byte, high half first. Written
text is upper case; reading takes either case and nothing else, so a
text that is read and written back changes at most in the case of its
letters. The empty text is not the hex text of anything, although the
empty value is written that way.
-/
import XorSpan.Bytes.Basic

namespace XorSpan

/-- A text that should have been hex digits; `none` when there was no
text at all. -/
inductive HexError where
  | invalid (text : Option String)
deriving DecidableEq, Repr

def HexError.message : HexError → String
  | .invalid (some text) => s!"Invalid hash: '{text}'"
  | .invalid none => "Invalid hash: 'None'"

namespace Bytes

-- ============================================================== writing

/-- The upper-case digit of a number below sixteen. -/
def hexDigit (d : UInt8) : Char :=
  Char.ofNat ((if d < 10 then 48 else 55) + d.toNat)

/-- The digits of a value. -/
def hexChars (b : Bytes) : List Char :=
  b.toList.flatMap fun (x : UInt8) => [hexDigit (x >>> 4), hexDigit (x &&& 15)]

/-- Upper-case hex text. -/
def toHex (b : Bytes) : String := String.ofList b.hexChars

-- ============================================================== reading

/-- What a digit of either case stands for. -/
def hexValue? (c : Char) : Option UInt8 :=
  if '0' ≤ c ∧ c ≤ '9' then some (UInt8.ofNat (c.toNat - 48))
  else if 'A' ≤ c ∧ c ≤ 'F' then some (UInt8.ofNat (c.toNat - 55))
  else if 'a' ≤ c ∧ c ≤ 'f' then some (UInt8.ofNat (c.toNat - 87))
  else none

/-- Reads digits in pairs, putting the bytes behind those already
read. -/
def readHex (read : Bytes) : List Char → Option Bytes
  | [] => some read
  | [_] => none
  | high :: low :: rest =>
      match hexValue? high, hexValue? low with
      | some h, some l => readHex (read.push (h * 16 + l)) rest
      | _, _ => none

/-- The value that a nonempty hex text spells. -/
def ofHex? (text : String) : Option Bytes :=
  if text.isEmpty then none else readHex #[] text.toList

/-- The text is there and is hex text. -/
def isHex (text : Option String) : Bool := (text.bind ofHex?).isSome

/-- The value that a text spells, or the complaint about it. -/
def ofHex (text : Option String) : Except HexError Bytes :=
  match text.bind ofHex? with
  | some b => .ok b
  | none => .error (.invalid text)

end Bytes

end XorSpan
