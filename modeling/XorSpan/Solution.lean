/-
Solutions: values whose XOR is the target, together with the record of
each derived value. `Solution.find` checks the input, sweeps, and keeps
what occurs an odd number of times among the entries added.

A solution may also be put together by hand; nothing in the type says
that the values add up or that the records explain them.
-/
import XorSpan.Sweep
import Std.Data.HashSet

namespace XorSpan

structure Solution where
  target : Bytes
  pool : List Bytes
  /-- The values found, pool members and derived ones. -/
  computed : List Bytes
  /-- Derived values with their records, in order of first writing. -/
  records : Table Bytes Record
  stats : SweepStats := {}

namespace Solution

/-- The nonzero pool members: the values that need no explanation. -/
def base (s : Solution) : Std.HashSet Bytes :=
  Std.HashSet.ofList (s.pool.filter fun v => !v.isZero)

/-- A pool has enough entries for a target of `n` bytes. -/
def checkCount (n entries : Nat) : Except Fault Unit :=
  let required := Parameters.candidateFactor * n
  if entries < required then .error (.insufficientCandidates required entries)
  else .ok ()

/-- The target is there, the pool's entries are as long as it, and
there are enough of them. -/
def checkInputs (target : Bytes) (pool : List Bytes) : Except Fault Unit :=
  if target.size = 0 then .error .emptyTarget
  else match Bytes.misfit? target.size pool with
    | some (i, actual) => .error (.lengthMismatch i target.size actual)
    | none => checkCount target.size pool.length

/-- The solution at the end of a sweep. -/
def ofSweep (target : Bytes) (pool : List Bytes) (s : Sweep) :
    Job Solution := do
  if s.balance.total ≠ target.toWord then
    throw (.defect .accumulator
      (.accumulator (Bytes.ofWord target.size s.balance.total)))
  let appended := s.balance.appended.reverse
  let nonzero := (appended.filter (· != 0)).map (Bytes.ofWord target.size)
  let computed := Bytes.oddOnes nonzero
  Job.ofExcept (checkSum .result target computed)
  Job.note s!"Reached  {target.toHex}"
  Job.note (s!"Required {computed.length} hashes " ++
    s!"({appended.length} contributions, {s.records.size} combinations)")
  return {
    target, pool, computed
    records := s.records
    stats := {
      bits := 8 * target.size
      contributions := appended.length
      recorded := s.recorded
      duplicates := s.duplicates
      zeros := appended.length - nonzero.length
      computed := computed.length } }

/-- Finds values whose XOR is the target. The zero target needs none
and is not swept for, so it is found in any pool. -/
def find (target : Bytes) (pool : List Bytes) : Job Solution := do
  Job.ofExcept (checkInputs target pool)
  Job.poll .start
  if target.isZero then
    return { target, pool, computed := [], records := .empty }
  ofSweep target pool (← (Sweep.initial target pool).run)

end Solution

end XorSpan
