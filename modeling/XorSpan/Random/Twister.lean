/-
The Mersenne Twister MT19937, seeded from an array of words, as a source
of bytes. Its state is 624 words and the number of words already given
out; when all are used up the whole state is twisted. Index arithmetic
is modulo 624 throughout.
-/
import XorSpan.Bytes.Basic

namespace XorSpan.Random

/-- The words of the generator. -/
abbrev Cells := Vector UInt32 624

namespace Cells

def cell (m : Cells) (i : Nat) : UInt32 :=
  m.get ⟨i % 624, Nat.mod_lt _ (by decide)⟩

def put (m : Cells) (i : Nat) (x : UInt32) : Cells :=
  m.set (i % 624) x (Nat.mod_lt _ (by decide))

end Cells

/-- The words and how many of them have been given out. -/
structure Twister where
  cells : Cells
  used : Nat

namespace Twister

-- ============================================================== seeding

/-- What a word passes on to its successor while seeding. -/
def spread (x : UInt32) : UInt32 := x ^^^ (x >>> 30)

/-- Fills all words from one. -/
def ofWord (x : UInt32) : Cells :=
  (List.range 623).foldl
    (fun m i => m.put (i + 1)
      (1812433253 * spread (m.cell i) + (i + 1).toUInt32))
    (Cells.put (Vector.replicate 624 0) 0 x)

/-- Moves on to the next word; past the last one the first takes over
its value and seeding goes on at the second. -/
def advance (m : Cells) (i : Nat) : Cells × Nat :=
  if i + 1 < 624 then (m, i + 1) else (m.put 0 (m.cell 623), 1)

/-- Works a nonempty key into the words. -/
def absorb (key : Array UInt32) (m : Cells) : Cells × Nat :=
  (List.range (max 624 key.size)).foldl
    (fun (m, i) k =>
      let j := k % key.size
      let x := (m.cell i ^^^ (spread (m.cell (i + 623)) * 1664525)) +
        key.getD j 0 + j.toUInt32
      advance (m.put i x) i)
    (m, 1)

/-- The generator seeded by a nonempty key. -/
def ofKey (key : Array UInt32) : Twister :=
  let (m, i) := absorb key (ofWord 19650218)
  let (m, _) := (List.range 623).foldl
    (fun (m, i) _ =>
      let x := (m.cell i ^^^ (spread (m.cell (i + 623)) * 1566083941)) -
        i.toUInt32
      advance (m.put i x) i)
    (m, i)
  ⟨m.put 0 0x80000000, 624⟩

/-- The 32-bit limbs of a number, least significant first. -/
def limbs (n : Nat) : List UInt32 :=
  if n < 0x100000000 then [n.toUInt32]
  else n.toUInt32 :: limbs (n / 0x100000000)
termination_by n
decreasing_by omega

def ofSeed (seed : Nat) : Twister := ofKey (limbs seed).toArray

-- ============================================================== drawing

def twist (m : Cells) : Cells :=
  (List.range 624).foldl
    (fun m i =>
      let y := (m.cell i &&& 0x80000000) ||| (m.cell (i + 1) &&& 0x7fffffff)
      let odd : UInt32 := if y &&& 1 = 1 then 0x9908b0df else 0
      m.put i (m.cell (i + 397) ^^^ (y >>> 1) ^^^ odd))
    m

/-- The word given out for a word of the state. -/
def temper (y : UInt32) : UInt32 :=
  let y := y ^^^ (y >>> 11)
  let y := y ^^^ ((y <<< 7) &&& 0x9d2c5680)
  let y := y ^^^ ((y <<< 15) &&& 0xefc60000)
  y ^^^ (y >>> 18)

def next (t : Twister) : UInt32 × Twister :=
  let t := if t.used < 624 then t else ⟨twist t.cells, 0⟩
  (temper (t.cells.cell t.used), { t with used := t.used + 1 })

/-- The bytes of a word, low byte first. -/
def wordBytes (w : UInt32) : List UInt8 :=
  [w.toUInt8, (w >>> 8).toUInt8, (w >>> 16).toUInt8, (w >>> 24).toUInt8]

/-- Draws `n` bytes, putting them behind `drawn`: four bytes to a
word, low byte first; a rest of fewer than four takes the high bytes
of one more word. -/
def bytesFrom (drawn : Bytes) (t : Twister) (n : Nat) : Bytes × Twister :=
  if n = 0 then (drawn, t)
  else
    let (w, t) := t.next
    if n < 4 then (drawn ++ ((wordBytes w).drop (4 - n)).toArray, t)
    else bytesFrom (drawn ++ (wordBytes w).toArray) t (n - 4)
termination_by n
decreasing_by omega

def bytes (t : Twister) (n : Nat) : Bytes × Twister := bytesFrom #[] t n

end Twister

end XorSpan.Random
