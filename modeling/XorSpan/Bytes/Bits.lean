/-
Byte values as bit sequences, most significant bit first: position 0 is
bit 7 of byte 0, position 7 is bit 0 of byte 0, position 8 is bit 7 of
byte 1, and so on. The sequences are for callers that look at single
bits; the sweep itself works on words (`Bytes/Word.lean`).
-/
import XorSpan.Bytes.Basic

namespace XorSpan.Bytes

/-- The eight bits of one byte, most significant first. -/
def bitsOfByte (x : UInt8) : List Bool :=
  [7, 6, 5, 4, 3, 2, 1, 0].map fun k => x.toNat.testBit k

/-- All bits of a value, eight to a byte. -/
def toBits (b : Bytes) : List Bool := b.toList.flatMap bitsOfByte

/-- The byte whose low bits are the given ones; a group of fewer than
eight is thereby padded with zeros on the left. -/
def byteOfBits (bits : List Bool) : UInt8 :=
  bits.foldl (fun x bit => (x <<< 1) ||| (if bit then 1 else 0)) 0

/-- Cuts a bit sequence into groups of eight, the last one as long as
what is left. -/
def bitGroups : List Bool → List (List Bool)
  | [] => []
  | bit :: rest => (bit :: rest).take 8 :: bitGroups ((bit :: rest).drop 8)
termination_by bits => bits.length
decreasing_by
  simp only [List.length_drop, List.length_cons]
  omega

/-- Packs bits into bytes, eight to a byte. -/
def ofBits (bits : List Bool) : Bytes :=
  ((bitGroups bits).map byteOfBits).toArray

end XorSpan.Bytes
