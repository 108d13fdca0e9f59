/-
What can end a run other than its result.

Input is refused before any work is done: an empty target, a pool entry
of another length, too small a pool, and at the untyped entry points
(`Request.lean`) a value of the wrong kind. A run over accepted input can
find the pool not diverse enough, and it can be cancelled. A `Defect` is
an inconsistency that no accepted input should bring about; the checks
stay in place all the same. Receipts add two causes of their own.
-/
import XorSpan.Bytes.Sum
import XorSpan.Receipt.Drift

namespace XorSpan

/-- The loop or check that a fault arose in. -/
abbrev Stage := String

namespace Stage

def start : Stage := "solve.start"
def sweep : Stage := "solve.sweep"
def contribution : Stage := "solve.contribution"
def elimination : Stage := "solve.elimination"
def combination : Stage := "solve.combination"
def accumulator : Stage := "solve.accumulator"
def result : Stage := "solve.result"
def seed : Stage := "provenance.seed"
def walk : Stage := "provenance.walk"
def order : Stage := "provenance.order"
def parity : Stage := "provenance.parity"
def scan : Stage := "reduce.scan"
def reduced : Stage := "reduce.result"
def chart : Stage := "render.walk"
def validate : Stage := "validate"
def unknown : Stage := "unknown"

end Stage

/-- Something inconsistent. -/
inductive Defect where
  /-- Values that were to be summed cannot be. -/
  | unsummable (error : WordError)
  | wrongSum (total expected : Bytes)
  /-- A record's three values have these lengths. -/
  | operandLengths (left right result : Nat)
  | operandSum (left right result : Bytes)
  | accumulator (total : Bytes)
  /-- A zero value turned up where values are explained. -/
  | zeroValue
  /-- A value that is neither in the pool nor recorded. -/
  | orphan (value : Bytes)
  /-- A value that takes part in its own explanation. -/
  | cycle (value : Bytes)
  | unspecified (text : String)
deriving DecidableEq

def Defect.message : Defect → String
  | .unsummable error => error.message
  | .wrongSum total expected =>
      s!"Value list XOR sums to {total.toHex}, expected {expected.toHex}"
  | .operandLengths left right result =>
      s!"Combination operands differ in length: {left}, {right}, {result}"
  | .operandSum left right result =>
      s!"{left.toHex} ^ {right.toHex} != {result.toHex}"
  | .accumulator total => s!"Accumulator {total.toHex} does not match target"
  | .zeroValue => "Encountered a zero value"
  | .orphan value => s!"Orphaned combination: {value.toHex} has no source"
  | .cycle value => s!"Cycle through {value.toHex}"
  | .unspecified text => text

inductive Fault where
  | emptyTarget
  | lengthMismatch (index expected actual : Nat)
  | insufficientCandidates (required actual : Nat)
  /-- No working entry has this bit set. -/
  | unsolvable (bit : Nat)
  | defect (stage : Stage) (what : Defect)
  | cancelled (stage : Stage)
  | unclassified (text : String)
  /-- The value called `name` is of a kind that has no bytes. -/
  | notBytes (name kind : String)
  /-- Neither a truth value nor a level. -/
  | notLevel (value : Datum)
  /-- A datum that cannot be used as bytes where it should be. -/
  | unreadable (error : ReadError)
  | receipt (error : ReceiptError)
  | drift (report : Drift)

namespace Fault

def message : Fault → String
  | .emptyTarget => "Target hash has zero length"
  | .lengthMismatch index expected actual =>
      s!"Pool entry {index} has length {actual}, expected {expected}"
  | .insufficientCandidates required actual =>
      s!"Too few candidate values: got {actual}, need at least {required}"
  | .unsolvable bit =>
      s!"No pivot at bit {bit}. The candidate pool is likely not diverse enough."
  | .defect stage what => s!"[{stage}] {what.message}"
  | .cancelled stage => s!"Cancelled during {stage}"
  | .unclassified text => text
  | .notBytes name kind => s!"{name} must be bytes-like, got {kind}"
  | .notLevel value =>
      s!"optimize must be bool or OptimizeLevel, got {value.literal}"
  | .unreadable error => error.message
  | .receipt error => error.message
  | .drift report => report.message

/-- The exit status of a command that a fault ends: 1 for bad input, 2
for a pool that is not diverse enough, 130 for cancellation, 3 for
what is inconsistent. The remaining faults are nothing a command
expects. -/
def exitCode? : Fault → Option Nat
  | .emptyTarget | .lengthMismatch .. | .insufficientCandidates .. => some 1
  | .unsolvable _ => some 2
  | .cancelled _ => some 130
  | .defect .. | .unclassified _ | .drift _ => some 3
  | .notBytes .. | .notLevel _ | .unreadable _ | .receipt _ => none

end Fault

/-- The values add up to the target, byte for byte. -/
def checkSum (stage : Stage) (target : Bytes) (values : List Bytes) :
    Except Fault Unit :=
  match Bytes.sum values target.size with
  | .error e => .error (.defect stage (.unsummable e))
  | .ok total =>
      if total = target then .ok ()
      else .error (.defect stage (.wrongSum total target))

end XorSpan
