/-
Strict reading of UTF-8. Overlong forms, surrogates and numbers beyond
U+10FFFF are refused at their first byte that rules them out.

A text is decoded as far as it goes. It can stop in two ways: at a
sequence that is broken, whatever follows, and at a sequence that is
whole so far but cut off by the end of the bytes. The difference matters
to a reader that works line by line: a broken sequence spoils the text
at once, a cut one only when the end is reached, and by then it is all
that is left to decode, so its positions count from its own first byte.
-/

namespace XorSpan.Text

/-- What is wrong with a sequence of bytes. -/
inductive Utf8Flaw where
  | invalidStart
  | invalidContinuation
  | unexpectedEnd
deriving DecidableEq, Repr

/-- A sequence that is not UTF-8: where it starts, its first byte, and
how many bytes of it were read. -/
structure Utf8Error where
  flaw : Utf8Flaw
  start : Nat
  first : UInt8
  length : Nat
deriving DecidableEq, Repr

def Utf8Flaw.reason : Utf8Flaw → String
  | .invalidStart => "invalid start byte"
  | .invalidContinuation => "invalid continuation byte"
  | .unexpectedEnd => "unexpected end of data"

/-- The two lower-case digits of a byte. -/
def byteDigits (x : UInt8) : String :=
  String.ofList [Nat.digitChar (x.toNat / 16), Nat.digitChar (x.toNat % 16)]

def Utf8Error.message (e : Utf8Error) : String :=
  let place :=
    if e.length = 1 then s!"byte 0x{byteDigits e.first} in position {e.start}"
    else s!"bytes in position {e.start}-{e.start + e.length - 1}"
  s!"'utf-8' codec can't decode {place}: {e.flaw.reason}"

-- ====================================================== one character

/-- What stands at the front of nonempty bytes. -/
inductive Utf8Step where
  /-- A character made of `length` bytes. -/
  | char (c : Char) (length : Nat)
  /-- A sequence that no further bytes can mend. -/
  | broken (flaw : Utf8Flaw) (length : Nat)
  /-- A sequence that the end of the bytes cuts off. -/
  | cut

def isContinuation (x : UInt8) : Bool := 0x80 ≤ x && x < 0xc0

/-- The second bytes that may follow a first byte of a sequence of
three or four: they keep the number above the shorter forms, out of
the surrogates and within range. -/
def isSecond (first second : UInt8) : Bool :=
  isContinuation second &&
    (if first = 0xe0 then 0xa0 ≤ second
     else if first = 0xed then second < 0xa0
     else if first = 0xf0 then 0x90 ≤ second
     else if first = 0xf4 then second < 0x90
     else true)

/-- The number spelled by the payload bits of a sequence. -/
def joinPayload (head : UInt8) (tail : List UInt8) : Nat :=
  tail.foldl (fun n x => n * 64 + (x &&& 0x3f).toNat) head.toNat

/-- Reads a character whose first byte is `first`. -/
def utf8Step (first : UInt8) (rest : List UInt8) : Utf8Step :=
  if first < 0x80 then .char (Char.ofNat first.toNat) 1
  else if first < 0xc2 then .broken .invalidStart 1
  else if first < 0xe0 then
    match rest with
    | [] => .cut
    | a :: _ =>
        if !isContinuation a then .broken .invalidContinuation 1
        else .char (Char.ofNat (joinPayload (first &&& 0x1f) [a])) 2
  else if first < 0xf0 then
    match rest with
    | [] => .cut
    | a :: rest =>
        if !isSecond first a then .broken .invalidContinuation 1
        else match rest with
          | [] => .cut
          | b :: _ =>
              if !isContinuation b then .broken .invalidContinuation 2
              else .char (Char.ofNat (joinPayload (first &&& 0x0f) [a, b])) 3
  else if first < 0xf5 then
    match rest with
    | [] => .cut
    | a :: rest =>
        if !isSecond first a then .broken .invalidContinuation 1
        else match rest with
          | [] => .cut
          | b :: rest =>
              if !isContinuation b then .broken .invalidContinuation 2
              else match rest with
                | [] => .cut
                | c :: _ =>
                    if !isContinuation c then .broken .invalidContinuation 3
                    else .char
                      (Char.ofNat (joinPayload (first &&& 0x07) [a, b, c])) 4
  else .broken .invalidStart 1

-- ====================================================== a whole text

/-- How the decoding of a text ended. -/
inductive Utf8End where
  | complete
  | broken (error : Utf8Error)
  | cut (error : Utf8Error)
deriving DecidableEq, Repr

/-- A surrogate whose last byte is missing. It can no longer become a
character, but that is only found out at the end of the bytes. -/
def isCutSurrogate (first : UInt8) : List UInt8 → Bool
  | [a] => first = 0xed && 0xa0 ≤ a && a < 0xc0
  | _ => false

/-- Decodes from byte `position` on. `read` holds the characters
before it, latest first. -/
def decodeFrom (position : Nat) (read : List Char) :
    List UInt8 → List Char × Utf8End
  | [] => (read.reverse, .complete)
  | first :: rest =>
      match utf8Step first rest with
      | .char c length =>
          decodeFrom (position + length) (c :: read) (rest.drop (length - 1))
      | .broken flaw length =>
          if isCutSurrogate first rest then
            (read.reverse, .cut ⟨flaw, 0, first, length⟩)
          else (read.reverse, .broken ⟨flaw, position, first, length⟩)
      | .cut => (read.reverse, .cut ⟨.unexpectedEnd, 0, first, rest.length + 1⟩)
termination_by bytes => bytes.length
decreasing_by
  simp only [List.length_drop, List.length_cons]
  omega

/-- The characters of a text, up to its end or to its first flaw. -/
def decodeUtf8 (bytes : List UInt8) : List Char × Utf8End :=
  decodeFrom 0 [] bytes

end XorSpan.Text
