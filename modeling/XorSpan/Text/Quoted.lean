/-
Quoted text: how a string or a byte value is written where a message
shows it as a literal. The quotes are single unless the text holds a
single quote and no double one. The quote in use and the backslash get a
backslash, in the literal of a buffer a single quote whether in use or
not; tab, line feed and carriage return have short escapes; other
characters that do not print are written by number in two, four or eight
lower-case hex digits, whichever is the least that holds them.
-/
import XorSpan.Bytes.Basic
import XorSpan.Text.Printable

namespace XorSpan.Text

/-- The quote that a text is put in. -/
def quoteFor (cs : List Char) : Char :=
  if cs.contains '\'' && !cs.contains '"' then '"' else '\''

/-- Lower-case hex digits of `n`, at least `width` of them. -/
def paddedHex (width n : Nat) : List Char :=
  let digits := Nat.toDigits 16 n
  List.replicate (width - digits.length) '0' ++ digits

/-- A character written by its number. -/
def numberEscape (c : Char) : List Char :=
  let n := c.toNat
  if n < 0x100 then '\\' :: 'x' :: paddedHex 2 n
  else if n < 0x10000 then '\\' :: 'u' :: paddedHex 4 n
  else '\\' :: 'U' :: paddedHex 8 n

/-- One character between quotes. A backslash goes before it and
before the mark; `shown` says which other characters may stand for
themselves. -/
def escape (shown : Char → Bool) (mark c : Char) : List Char :=
  if c = mark ∨ c = '\\' then ['\\', c]
  else if c = '\n' then ['\\', 'n']
  else if c = '\r' then ['\\', 'r']
  else if c = '\t' then ['\\', 't']
  else if shown c then [c]
  else numberEscape c

/-- A text between quotes, its characters escaped. -/
def enclose (quote : Char) (shown : Char → Bool) (mark : Char)
    (cs : List Char) : List Char :=
  quote :: cs.flatMap (escape shown mark) ++ [quote]

def quoted (s : String) : String :=
  let cs := s.toList
  String.ofList (enclose (quoteFor cs) isPrintable (quoteFor cs) cs)

/-- Only plain ASCII stands for itself in the literal of a byte value. -/
def isPlainAscii (c : Char) : Bool := 0x20 ≤ c.toNat && c.toNat < 0x7f

/-- The bytes of a value as characters of the same numbers. -/
def byteChars (b : Bytes) : List Char :=
  b.toList.map fun x : UInt8 => Char.ofNat x.toNat

def quotedBytes (b : Bytes) : String :=
  let cs := byteChars b
  String.ofList ('b' :: enclose (quoteFor cs) isPlainAscii (quoteFor cs) cs)

def quotedBuffer (b : Bytes) : String :=
  let cs := byteChars b
  "bytearray(b" ++ String.ofList
    (enclose (quoteFor cs) isPlainAscii '\'' cs) ++ ")"

end XorSpan.Text
