/-
Shortest decimal text of a binary floating-point number: the fewest
digits that read back as the same number, and of those the nearest.

A finite number is `m · 2^q`. The reals that read back as it form an
interval around it, half a gap to either side, ends included when `m` is
even. The grids of multiples of `10^s` are tried from coarse to fine;
the first that has a point in the interval gives the digits. Only the
two neighbours of the number on a grid have to be tested, since a point
further out is in the interval only if a neighbour is. All of this is
exact arithmetic on natural numbers.
-/

namespace XorSpan.Decimal

/-- A positive number `digits · 10^exponent`. -/
structure Scientific where
  digits : Nat
  exponent : Int
deriving DecidableEq, Repr

/-- A positive binary number `mantissa · 2^exponent`; `narrow` when
the gap below it is half the gap above. -/
structure Binary where
  mantissa : Nat
  exponent : Int
  narrow : Bool
deriving DecidableEq, Repr

/-- `base ^ e` for positive `e`, else 1. -/
def powPos (base : Nat) (e : Int) : Nat := Nat.pow base e.toNat

/-- The point of the grid of `10^s` that reads back as `b` and is
nearest to it, if the grid has one. Distances are measured in quarter
gaps, both sides scaled to whole numbers; a tie goes to the even
digit. -/
def onGrid (b : Binary) (s : Int) : Option Scientific :=
  let unit := powPos 2 (b.exponent - 2) * powPos 10 (-s)
  let step := powPos 10 s * powPos 2 (2 - b.exponent)
  let value := 4 * b.mantissa * unit
  let low := (4 * b.mantissa - (if b.narrow then 1 else 2)) * unit
  let high := (4 * b.mantissa + 2) * unit
  let inside (d : Nat) : Bool :=
    if b.mantissa % 2 = 0 then low ≤ d * step && d * step ≤ high
    else low < d * step && d * step < high
  let below := value / step
  let above := below + 1
  match inside below, inside above with
  | true, true =>
      let down := value - below * step
      let up := above * step - value
      if down < up || (down == up && below % 2 == 0) then some ⟨below, s⟩
      else some ⟨above, s⟩
  | true, false => some ⟨below, s⟩
  | false, true => some ⟨above, s⟩
  | false, false => none

/-- Tries `count` grids from `10^s` downwards. -/
def coarsest (b : Binary) (s : Int) : Nat → Scientific
  | 0 => ⟨0, 0⟩
  | count + 1 =>
      match onGrid b s with
      | some d => d
      | none => coarsest b (s - 1) count

/-- The shortest digits of a positive number. The grids tried reach
from above the largest double to below the smallest. -/
def shortest (b : Binary) : Scientific := coarsest b 310 660

-- ================================================================ text

/-- The digits before which a point stands: `0.digits · 10^point`. -/
def Scientific.point (d : Scientific) : Int :=
  (toString d.digits).length + d.exponent

/-- Numbers from one ten-thousandth up to below ten to the sixteenth
are written with a point among the digits, others with a power of ten
of at least two digits. -/
def Scientific.text (d : Scientific) : String :=
  let ds := (toString d.digits).toList
  let point := d.point
  if -4 < point ∧ point ≤ 0 then
    String.ofList ("0.".toList ++ List.replicate (-point).toNat '0' ++ ds)
  else if 0 < point ∧ point ≤ 16 then
    let k := point.toNat
    if ds.length ≤ k then
      String.ofList (ds ++ List.replicate (k - ds.length) '0' ++ ['.', '0'])
    else String.ofList (ds.take k ++ '.' :: ds.drop k)
  else
    let power := point - 1
    let powerDigits := toString power.natAbs
    let fraction := if ds.length ≤ 1 then [] else '.' :: ds.drop 1
    String.ofList (ds.take 1 ++ fraction) ++ "e" ++
      (if power < 0 then "-" else "+") ++
      (if powerDigits.length < 2 then "0" else "") ++ powerDigits

/-- The text of any double. -/
def floatText (x : Float) : String :=
  let bits := x.toBits.toNat
  let sign := if bits >>> 63 = 1 then "-" else ""
  let biased : Nat := (bits >>> 52) % 0x800
  let fraction : Nat := bits % 0x10000000000000
  if biased = 2047 then (if fraction = 0 then sign ++ "inf" else "nan")
  else if biased = 0 then
    if fraction = 0 then sign ++ "0.0"
    else sign ++ (shortest ⟨fraction, -1074, false⟩).text
  else
    sign ++ (shortest
      ⟨0x10000000000000 + fraction, (biased : Int) - 1075,
        fraction == 0 && biased != 1⟩).text

end XorSpan.Decimal
