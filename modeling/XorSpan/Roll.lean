/-
Looking data of any kind up as if they were bytes.

What is looked up has to stay as it is, but it need not be bytes. Data
that are not, strangers, get aliases: bytes that are longer than any that
are in use, each of its own length. Under its alias a stranger has its
place among the bytes; the roll tells which stranger an alias stands for.

A stranger is entered when it is first met. One that is like an earlier
one, as the truth value is that is like the number 1, goes under the
alias of that one.
-/
import XorSpan.Fault

namespace XorSpan

structure Roll where
  /-- The length of the first alias. -/
  reserved : Nat
  /-- The strangers met, in order. -/
  strangers : Array Datum := #[]

namespace Roll

/-- An empty roll. The aliases on it are longer than any of the data. -/
def blank (data : List Datum) : Roll where
  reserved := 1 + data.foldl (fun n d => max n (d.length.toOption.getD 0)) 0

/-- The alias of a stranger by its number. -/
def aliasOf (r : Roll) (i : Nat) : Bytes := Array.replicate (r.reserved + i) 1

/-- The stranger that an alias stands for. -/
def stranger? (r : Roll) (b : Bytes) : Option Datum :=
  if b.size < r.reserved then none else r.strangers[b.size - r.reserved]?

/-- What bytes stand for: a stranger, or themselves. -/
def datum (r : Roll) (b : Bytes) : Datum := (r.stranger? b).getD (.bytes b)

/-- The bytes that a datum is looked up by, unless it is a stranger
never met. -/
def name? (r : Roll) (d : Datum) : Except KindError (Option Bytes) := do
  d.checkConstant
  match d.bytes? with
  | some b => return some b
  | none => return (r.strangers.findIdx? d.alike).map r.aliasOf

/-- The bytes that a datum is looked up by from now on. -/
def enter (r : Roll) (d : Datum) : Except KindError (Roll × Bytes) := do
  match ← r.name? d with
  | some b => return (r, b)
  | none =>
    return ({ r with strangers := r.strangers.push d },
      r.aliasOf r.strangers.size)

/-- The bytes that data are looked up by, entered one after the other. -/
def enterAll (r : Roll) (data : List Datum) :
    Except KindError (Roll × List Bytes) := do
  let (r, names) ← data.foldlM (fun ((r, names) : Roll × List Bytes) d => do
    let (r, b) ← r.enter d
    return (r, b :: names)) (r, [])
  return (r, names.reverse)

/-- The fault as it comes out when a stranger is concerned: messages
show values by their hex text, which a stranger does not have. -/
def disclose (r : Roll) (fault : Fault) : Fault :=
  let concerned := match fault with
    | .defect _ (.cycle b) | .defect _ (.orphan b) => r.stranger? b
    | _ => none
  match concerned with
  | some d => .unreadable (.kind (d.lacks .hex))
  | none => fault

/-- Without strangers all bytes stand for themselves. -/
theorem disclose_eq_self (r : Roll) (h : r.strangers = #[]) (fault : Fault) :
    r.disclose fault = fault := by
  have hnone (b : Bytes) : r.stranger? b = none := by simp [stranger?, h]
  unfold disclose
  simp only [hnone]
  split
  · next heq => split at heq <;> cases heq
  · rfl

end Roll

end XorSpan
