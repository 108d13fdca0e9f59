/-
Random problems for demonstrations: a target and a pool of values of one
length, all drawn from one source. The pool holds a multiple of as many
values as the target has bits.

From a seed that the user chose the same problem is drawn every time.
Values are then drawn as numbers of so many bits, which makes the longest
one shorter than the longest that the system gives.
-/
import XorSpan.Capacity
import XorSpan.Parameters
import XorSpan.Random.Twister

namespace XorSpan.Random

/-- What the source of random bytes starts from. -/
inductive Seed where
  /-- A number that the user chose; its sign does not count. -/
  | chosen (n : Int)
  /-- A number that nobody can foresee. -/
  | entropy (n : Nat)
deriving DecidableEq, Repr

namespace Seed

def source : Seed → Twister
  | .chosen n => .ofSeed n.natAbs
  | .entropy n => .ofSeed n

/-- Values of `length` bytes can be drawn. -/
def checkLength (length : Int) : Seed → Except CapacityError Unit
  | .chosen _ => Capacity.checkDraw length
  | .entropy _ => Capacity.checkValue length

end Seed

/-- Why no problem is drawn. -/
inductive PoolError where
  /-- Values of no bytes or fewer were asked for. -/
  | noBytes (length : Int)
  | capacity (error : CapacityError)
deriving DecidableEq, Repr

def PoolError.message : PoolError → String
  | .noBytes length => s!"n_bytes must be positive, got {length}"
  | .capacity error => error.message

/-- Draws `count` values, putting them in front of `drawn`. -/
def drawValues (length : Nat) (drawn : List Bytes) (source : Twister) :
    Nat → List Bytes
  | 0 => drawn.reverse
  | count + 1 =>
      let (value, source) := source.bytes length
      drawValues length (value :: drawn) source count

/-- Values of `length` bytes have bytes. -/
def checkPositive (length : Int) : Except PoolError Unit :=
  if length ≤ 0 then .error (.noBytes length) else .ok ()

/-- Draws a target and `factor` values to each of its bits. -/
def problem (length factor : Int) (seed : Seed) :
    Except PoolError (Bytes × List Bytes) := do
  checkPositive length
  (seed.checkLength length).mapError .capacity
  let (target, source) := seed.source.bytes length.toNat
  return (target, drawValues length.toNat [] source (length * 8 * factor).toNat)

end XorSpan.Random
