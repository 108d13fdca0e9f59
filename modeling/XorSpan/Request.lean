/-
Requests as they arrive: byte values that may be data of any kind, and
numbers of any size.

The requests for an answer name every value and refuse the first that is
not bytes, in a fixed order: the level, the target, the pool entries one
after the other. A level may be a truth value, true for pool members
only. The requests for a single operation look at their data as the
operation comes to them, so what is wrong with an earlier one is reported
first whatever it is.
-/
import XorSpan.Answer
import XorSpan.Bytes.Bits
import XorSpan.Graph.Draft

namespace XorSpan

/-- What is asked for as a level. -/
inductive LevelChoice where
  | level (level : Level)
  | datum (value : Datum)

namespace LevelChoice

/-- The level that is meant. -/
def level? : LevelChoice → Except Fault Level
  | .level l => .ok l
  | .datum (.bool true) => .ok .base
  | .datum (.bool false) => .ok .computed
  | .datum value => .error (.notLevel value)

end LevelChoice

namespace Datum

/-- The bytes of the value called `name`. -/
def asBytes (name : String) (d : Datum) : Except Fault Bytes :=
  match d.bytes? with
  | some b => .ok b
  | none => .error (.notBytes name d.kind)

/-- The bytes of all values; `name` makes each one's name from its
index. -/
def asBytesList (name : Nat → String) (index : Nat) :
    List Datum → Except Fault (List Bytes)
  | [] => .ok []
  | d :: ds => do
      let b ← d.asBytes (name index)
      let bs ← asBytesList name (index + 1) ds
      return b :: bs

end Datum

namespace Request

open Reply

-- =============================================================== answers

/-- The bytes of a target and of the pool to find it in. -/
def inputs (target : Datum) (pool : List Datum) :
    Except Fault (Bytes × List Bytes) := do
  let target ← target.asBytes "target"
  let pool ← Datum.asBytesList (fun i => s!"pool[{i}]") 0 pool
  return (target, pool)

/-- The parts of a request for an answer. -/
def answer (level : LevelChoice) (target : Datum) (pool : List Datum) :
    Except Fault (Level × Bytes × List Bytes) := do
  let level ← level.level?
  let inputs ← inputs target pool
  return (level, inputs)

/-- Checks that values add up to a target. -/
def validate (target : Datum) (values : List Datum) : Except Fault Unit := do
  let values ← Datum.asBytesList (fun _ => "value") 0 values
  let target ← target.asBytes "target"
  checkSum .validate target values

-- ============================================================ operations

def length (d : Datum) : Reply Nat := need d.length

def bits (d : Datum) : Reply (List Bool) := do
  return Bytes.toBits (← read .bits d)

def word (d : Datum) : Reply Nat := do
  return Bytes.toWord (← read .word d)

def value (word width : Int) : Reply Bytes := do
  (Bytes.checkWidth word width).mapError .word
  (Capacity.checkValue width).mapError .capacity
  (Bytes.ofWord? word width).mapError .word

/-- The word in which only the bit at `position` is set. -/
def bitMask (position width : Int) : Reply Nat := do
  (Bytes.checkPosition position width).mapError .word
  (Capacity.checkBit (width - 1 - position)).mapError .capacity
  (Bytes.bitMask position width).mapError .word

def xor (a b : Datum) : Reply Bytes := do
  let left ← length a
  let right ← length b
  if left ≠ right then throw (.word (.unequalLengths left right))
  (Bytes.xor? (← read .word a) (← read .word b)).mapError .word

/-- Adds data to `word` one after the other; `index` numbers them. -/
def sumFrom (width : Int) (index word : Nat) : List Datum → Reply Nat
  | [] => .ok word
  | d :: ds => do
      let n ← length d
      if (n : Int) ≠ width then throw (.word (.wrongLength index n width))
      sumFrom width (index + 1) (word ^^^ (← Request.word d)) ds

/-- The XOR of all data, each of which has to be `width` bytes long. -/
def sum (values : List Datum) (width : Int) : Reply Bytes := do
  value (Int.ofNat (← sumFrom width 0 0 values)) width

def isZero (d : Datum) : Reply Bool := need d.isZero

/-- The bytes made from the data that occur an odd number of times. -/
def oddOnes (values : List Datum) : Reply (List Bytes) := do
  let (roll, names) ← need ((Roll.blank values).enterAll values)
  (Bytes.oddOnes names).mapM fun name => read .copy (roll.datum name)

/-- Checks that data add up to a target; a sum that cannot be taken is
a defect, but not a datum of the wrong kind. Nothing adds up to a
target that is not bytes. -/
def checkSum (stage : Stage) (target : Datum) (values : List Datum) :
    Reply Unit := do
  let n ← length target
  match sumFrom n 0 0 values with
  | .error (.word e) => throw (.fault (.defect stage (.unsummable e)))
  | .error (.reading (.kind e)) => throw (.reading (.kind e))
  | .error (.reading e) =>
    throw (.fault (.defect stage (.unspecified e.message)))
  | .error e => throw e
  | .ok word =>
      let total := Bytes.ofWord n word
      match target.bytes? with
      | none => need (.error (target.lacks .hex))
      | some b =>
        if total = b then return ()
        else throw (.fault (.defect stage (.wrongSum total b)))

/-- The lengths of data up to the first that is not `n`, by index and
length. -/
def misfit? (n index : Nat) : List Datum → Reply (Option (Nat × Nat))
  | [] => .ok none
  | d :: ds => do
      let actual ← length d
      if actual = n then misfit? n (index + 1) ds
      else return some (index, actual)

/-- Checks a target and a pool without looking at their bytes. -/
def checkInputs (target : Datum) (pool : List Datum) : Reply Unit := do
  let n ← length target
  if n = 0 then throw (.fault .emptyTarget)
  match ← misfit? n 0 pool with
  | some (i, actual) => throw (.fault (.lengthMismatch i n actual))
  | none => (Solution.checkCount n pool.length).mapError .fault

def fingerprint (d : Datum) : Reply String :=
  match d.bytes? with
  | some b => .ok (Hash.fingerprint b.toList)
  | none => need (.error (d.lacks .bytes))

def hex (d : Datum) : Reply String := do
  return Bytes.toHex (← read .copy d)

def frame (values : List Datum) : Reply (List UInt8) := do
  (Frame.encode (← values.mapM (read .copy))).mapError .frame

/-- Three data are shown by their hex text, which only bytes have. -/
def checkShown (left right result : Datum) : Reply Unit :=
  match [left, right, result].find? (·.bytes?.isNone) with
  | some d => need (.error (d.lacks .hex))
  | none => .ok ()

def record (left right result : Datum) : Reply Record := do
  let l ← length left
  let r ← length right
  let s ← length result
  if l ≠ r ∨ r ≠ s then
    throw (.fault (.defect .combination (.operandLengths l r s)))
  match Record.make (← read .word left) (← read .word right)
    (← read .word result) with
  | .ok record => return record
  | .error fault => do
      checkShown left right result
      throw (.fault fault)

-- ================================================================= drafts

/-- One row of a draft: a record and the datum that it is stored
under. -/
structure Row where
  left : Datum
  right : Datum
  result : Datum
  key : Datum

def Row.data (row : Row) : List Datum :=
  [row.left, row.right, row.result, row.key]

/-- The entry that a row makes. -/
def entry (roll : Roll) (row : Row) : Reply Draft.Entry := do
  let record ← record row.left row.right row.result
  let key ← need (roll.name? row.key)
  let loose := match row.left.checkConstant, row.right.checkConstant with
    | .error e, _ | .ok (), .error e => some e
    | .ok (), .ok () => none
  return ⟨key, record, loose⟩

/-- A target and a pool that a graph is reduced against. -/
def sides (target : Datum) (pool : List Datum) :
    Reply (Bytes × List Bytes) := do
  let target ← read .copy target
  return (target, ← pool.mapM (read .copy))

/-- Enters a value that was found, if it can be looked up. -/
def enterFound (found : Roll × List (Except KindError Bytes)) (d : Datum) :
    Roll × List (Except KindError Bytes) :=
  match found with
  | (roll, names) =>
      match roll.enter d with
      | .ok (roll, name) => (roll, .ok name :: names)
      | .error e => (roll, .error e :: names)

/-- The draft of which these are the parts. -/
def draft (target : Datum) (pool computed : List Datum) (rows : List Row) :
    Reply Draft := do
  let data := target :: pool ++ computed ++ rows.flatMap Row.data
  let (roll, names) := computed.foldl enterFound (Roll.blank data, [])
  let entries ← rows.mapM (entry roll)
  let (target, pool) ← sides target pool
  return .ofEntries target pool roll names.reverse entries

end Request

end XorSpan
