/-
The sweep: elimination over GF(2), one bit position at a time, from the
most significant bit on.

The sweep keeps a list of working entries, at first the words of the
pool, and a residual, at first the word of the target. At each position
it makes two passes over the entries.

- Contribution: an entry whose bit equals the residual's is added to the
  residual and to the total. The residual changes at once, so an entry
  meets what earlier ones have left of it. Once an entry with the bit set
  has been added, the residual's bit is clear, and only entries whose bit
  is clear are added from then on.
- Elimination: the first entry with the bit set is the pivot and leaves
  the list; so do exact copies of it. Every other entry with the bit set
  is replaced by its XOR with the pivot, and the new value is recorded.

So after a position no entry has its bit, nor has the residual, and
total XOR residual is the target throughout. At the end the residual is
zero and the total is the target.

Of an entry only its word is kept, and not which members of the pool it
comes from: nothing asks for these, as a derived value is explained by
its record.
-/
import XorSpan.Record
import XorSpan.Job

namespace XorSpan

structure SweepStats where
  bits : Nat := 0
  /-- Entries added by contribution passes. -/
  contributions : Nat := 0
  /-- Records written, overwritten ones included. -/
  recorded : Nat := 0
  /-- Copies of a pivot, the pivot itself not counted. -/
  duplicates : Nat := 0
  /-- Zero entries among the contributions. -/
  zeros : Nat := 0
  /-- Values of the combination found. -/
  computed : Nat := 0
deriving DecidableEq, Repr, Inhabited

def SweepStats.json (s : SweepStats) : List (String × Json) :=
  [("bits_swept", .int s.bits), ("contributions", .int s.contributions),
   ("combinations_recorded", .int s.recorded),
   ("duplicates_dropped", .int s.duplicates),
   ("zero_contributions", .int s.zeros), ("computed_count", .int s.computed)]

namespace Sweep

-- ======================================================== contribution

/-- What has been added up and what is left to reach the target. -/
structure Balance where
  total : Nat
  residual : Nat
  /-- The entries added, latest first. -/
  appended : List Nat
deriving Inhabited

/-- Adds an entry if it agrees with the residual in `bit`. -/
def contribute (bit : Nat) (b : Balance) (entry : Nat) : Balance :=
  if entry.testBit bit = b.residual.testBit bit then
    ⟨b.total ^^^ entry, b.residual ^^^ entry, entry :: b.appended⟩
  else b

-- ========================================================= elimination

structure Elimination where
  /-- The pivot has been passed. -/
  pivotMet : Bool
  /-- The entries that go on, latest first. -/
  kept : List Nat
  records : Table Bytes Record
  recorded : Nat
  duplicates : Nat

/-- Passes one entry: keeps it if its bit is clear, drops it if it is
the pivot or a copy, else replaces and records it. The pivot is the
first entry whose bit is set; `pivotValue` is its value. -/
def eliminate (width bit pivot : Nat) (pivotValue : Bytes)
    (e : Elimination) (entry : Nat) :
    Except Fault Elimination :=
  if !entry.testBit bit then .ok { e with kept := entry :: e.kept }
  else if !e.pivotMet then .ok { e with pivotMet := true }
  else if entry = pivot then .ok { e with duplicates := e.duplicates + 1 }
  else do
    let sum := entry ^^^ pivot
    let result := Bytes.ofWord width sum
    let record ← Record.make (Bytes.ofWord width entry) pivotValue result
    return { e with
      kept := sum :: e.kept
      records := e.records.insert result record
      recorded := e.recorded + 1 }

end Sweep

-- ============================================================ the sweep

/-- A sweep over values of `width` bytes, between two positions. -/
structure Sweep where
  width : Nat
  working : List Nat
  balance : Sweep.Balance
  records : Table Bytes Record
  recorded : Nat
  duplicates : Nat

namespace Sweep

def initial (target : Bytes) (pool : List Bytes) : Sweep where
  width := target.size
  working := pool.map Bytes.toWord
  balance := ⟨0, target.toWord, []⟩
  records := .empty
  recorded := 0
  duplicates := 0

/-- The bit of a word at a position, counted from the left. -/
def bitOf (s : Sweep) (position : Nat) : Nat := 8 * s.width - 1 - position

/-- One position: contribution, pivot, elimination. -/
def step (s : Sweep) (position : Nat) : Job Sweep := do
  Job.poll .sweep
  let bit := s.bitOf position
  let balance ← Job.visit .contribution
    (fun b w => .ok (contribute bit b w)) s.balance s.working
  match s.working.find? (·.testBit bit) with
  | none => throw (.unsolvable position)
  | some pivot =>
      let pivotValue := Bytes.ofWord s.width pivot
      let e ← Job.visit .elimination (eliminate s.width bit pivot pivotValue)
        ⟨false, [], s.records, s.recorded, s.duplicates⟩ s.working
      return { s with
        working := e.kept.reverse
        balance := balance
        records := e.records
        recorded := e.recorded
        duplicates := e.duplicates }

/-- All positions from the left. -/
def run (s : Sweep) : Job Sweep := (List.range (8 * s.width)).foldlM step s

end Sweep

end XorSpan
