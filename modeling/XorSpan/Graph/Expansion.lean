/-
From a solution to its graph. The computed values are attached to the
root; then every value that is not a pool member is explained through its
record, whose two operands are attached to it, and so on until only pool
members are left. A pool member is a leaf even if a record for it exists.

A value is explained when its node is new, so each at most once; its
record is spent in the process. That is also why the expansion ends,
whatever the records say, cyclic ones included: a step either spends a
record, adding at most two nodes to those pending, or takes one of them
away.
-/
import XorSpan.Graph.Basic
import XorSpan.Solution
import XorSpan.Walk

namespace XorSpan

structure Expansion where
  graph : Graph
  /-- Nodes still to be explained, the next one first. -/
  pending : List Nat
  /-- The records not yet spent. -/
  unspent : Std.HashMap Bytes Record

namespace Expansion

/-- Attaches a value to a node and marks its node as pending if it is
new. -/
def attach (e : Expansion) (parent : Nat) (value : Bytes) : Expansion :=
  let (graph, i, added) := e.graph.attachTo parent value
  { e with graph, pending := if added then i :: e.pending else e.pending }

/-- The root with no values attached yet. -/
def initial (s : Solution) : Expansion :=
  ⟨.ofRoot s.target, [], s.records.values⟩

/-- Explains the next pending node. -/
def step (base : Std.HashSet Bytes) (e : Expansion) : Stride Expansion :=
  match e.pending with
  | [] => .rest e
  | i :: pending =>
      let value := e.graph.valueAt i
      if value.isZero then .fail (.defect .walk .zeroValue)
      else if base.contains value then .move { e with pending } []
      else match e.unspent[value]? with
        | none => .fail (.defect .walk (.orphan value))
        | some record =>
            let e : Expansion :=
              { e with pending, unspent := e.unspent.erase value }
            .move ((e.attach i record.left).attach i record.right) []

/-- Nodes pending, and three for each record not yet spent. -/
def rank (e : Expansion) : Nat := 3 * e.unspent.size + e.pending.length

theorem rank_attach_le (e : Expansion) (parent : Nat) (value : Bytes) :
    (e.attach parent value).rank ≤ e.rank + 1 := by
  simp only [attach, rank]
  split <;> simp; omega

/-- Spending a record is worth three nodes. -/
theorem size_erase_add_one {records : Std.HashMap Bytes Record} {value : Bytes}
    (h : records[value]?.isSome) :
    (records.erase value).size + 1 = records.size := by
  have hmem : value ∈ records := Std.HashMap.isSome_getElem?_iff_mem.1 h
  have hpos : records.size ≠ 0 := by
    intro h0
    have hempty : records.isEmpty = true := by
      simp [Std.HashMap.isEmpty_eq_size_eq_zero, h0]
    exact Std.HashMap.not_mem_of_isEmpty hempty hmem
  rw [Std.HashMap.size_erase, if_pos hmem]
  omega

theorem rank_step_lt {base : Std.HashSet Bytes} {e e' : Expansion}
    {lines : List String}
    (h : e.step base = .move e' lines) : e'.rank < e.rank := by
  unfold step at h
  split at h
  · cases h
  · next i pending hp =>
    simp only at h
    split at h
    · cases h
    · split at h
      · cases h
        simp [rank, hp]
      · split at h
        · cases h
        · next record hr =>
          cases h
          have hsize := size_erase_add_one (by rw [hr]; rfl)
          refine Nat.lt_of_le_of_lt (rank_attach_le _ _ _) ?_
          refine Nat.lt_of_le_of_lt (Nat.succ_le_succ (rank_attach_le _ _ _)) ?_
          simp only [rank, hp, List.length_cons]
          omega

def walk (base : Std.HashSet Bytes) : Walk Expansion where
  stage := .walk
  step := step base
  rank e := (0, e.rank)
  descends h := Prod.Lex.right _ (rank_step_lt h)

def close (e : Expansion) : Job Graph := do
  let stats := e.graph.stats
  Job.note
    s!"Provenance: {stats.nodes} nodes, {stats.edges} edges, {stats.shared} shared"
  return e.graph

end Expansion

def Solution.graph (s : Solution) : Job Graph := do
  let seeded ← Job.visit .seed (fun e value => .ok (e.attach 0 value))
    (Expansion.initial s)
    s.computed
  (← (Expansion.walk s.base).run seeded).close

end XorSpan
