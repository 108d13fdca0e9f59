/-
Which double is which whole number. A double is compared with a whole
number by its exact value, not by rounding the whole number to a double.
-/
import XorSpan.Decimal.Shortest

namespace XorSpan.Decimal

/-- The whole number that a double is, if it is one. -/
def whole? (x : Float) : Option Int :=
  let bits := x.toBits.toNat
  let biased : Nat := (bits >>> 52) % 0x800
  let fraction : Nat := bits % 0x10000000000000
  if biased = 2047 then none
  else
    let mantissa := if biased = 0 then fraction else 0x10000000000000 + fraction
    let exponent : Int := if biased = 0 then -1074 else (biased : Int) - 1075
    let upper := mantissa * powPos 2 exponent
    let lower := powPos 2 (-exponent)
    if upper % lower ≠ 0 then none
    else if bits >>> 63 = 1 then some (-(upper / lower : Nat))
    else some (upper / lower : Nat)

end XorSpan.Decimal
