/-
Answers: the passes chained.

An answer is either the values as the sweep computed them, some of them
perhaps derived, or those values reduced to pool members. Every pass
leaves a receipt; the answer comes with their digests. A checked answer
is computed three times, and the second and third time have to agree in
the hash of every section and in the values.
-/
import XorSpan.Graph.Chart
import XorSpan.Graph.Reduction

namespace XorSpan

/-- How far derived values are resolved. -/
inductive Level where
  /-- Values as computed. -/
  | computed
  /-- Pool members only. -/
  | base
deriving DecidableEq, Repr, Inhabited

structure Answer where
  values : List Bytes
  /-- One digest for each pass, in order. -/
  digests : List Digest
  /-- How many sections the check compared, if there was one. -/
  checked : Option Nat := none
deriving Inhabited

namespace Answer

/-- The receipt of the sweep. -/
def solveReceipt (s : Solution) : Receipt.Writer Unit := do
  Receipt.put "target" (.bytes s.target)
  Receipt.putValues "pool" s.pool
  Receipt.put "stats" (.ofJson (.dict s.stats.json))
  Receipt.putValues "computed" s.computed

def graphReceipt (g : Graph) : Receipt.Writer Unit :=
  Receipt.put "stats" (.ofJson (.dict g.stats.json))

def reductionReceipt (r : Reduction) : Receipt.Writer Unit := do
  Receipt.put "stats" (.ofJson (.dict r.stats.json))
  Receipt.putValues "base" r.values

/-- Finds an answer of a level, with receipts. -/
def find (level : Level) (target : Bytes) (pool : List Bytes) : Job Answer := do
  let s ← Solution.find target pool
  let solved ← Job.receipt "solve" (solveReceipt s)
  match level with
  | .computed => return ⟨s.computed, [solved], none⟩
  | .base =>
      let g ← s.graph
      let drawn ← Job.receipt "provenance" (graphReceipt g)
      let r ← g.reduce s
      let reduced ← Job.receipt "reduce" (reductionReceipt r)
      return ⟨r.values, [solved, drawn, reduced], none⟩

/-- The receipt of a whole answer: the hashes of its sections by name,
and its values. -/
def agreementReceipt (a : Answer) : Receipt.Writer Unit := do
  let sections := a.digests.mergeSort fun x y => decide (x.name ≤ y.name)
  sections.forM fun d => Receipt.put d.name (.str d.hash)
  Receipt.putValues "result" a.values

/-- Finds an answer, then finds it twice more and compares. -/
def findChecked (level : Level) (target : Bytes) (pool : List Bytes) :
    Job Answer := do
  let a ← find level target pool
  let left ← Job.receipt "determinism"
    (agreementReceipt (← find level target pool))
  let right ← Job.receipt "determinism"
    (agreementReceipt (← find level target pool))
  match Drift.between left right with
  | some report => throw (.drift report)
  | none => return { a with checked := some a.digests.length }

/-- The digests by section, with a word on the check if there was one. -/
def receipts (a : Answer) : Json :=
  .dict ((a.digests.map fun d => (d.name, d.json)) ++
    match a.checked with
    | none => []
    | some n =>
        [("determinism", .dict [("double_run_ok", .bool true),
          ("sections_checked", .int n)])])

end Answer

/-- Finds the values of an answer. -/
def solve (level : Level) (target : Bytes) (pool : List Bytes) :
    Job (List Bytes) := do
  return (← Answer.find level target pool).values

/-- Draws the chart of a target over a pool, without reduction. -/
def drawChart (target : Bytes) (pool : List Bytes) (footer : Bool) :
    Job Chart.Summary := do
  let s ← Solution.find target pool
  let g ← s.graph
  g.chart footer

end XorSpan
