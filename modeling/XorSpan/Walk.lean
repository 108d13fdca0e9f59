/-
Walks: loops over a state that still has work in it.

A walk takes one step after the other until no step is left. A step may
fail, and it may write lines. Every step makes the rank of the state
smaller, first component first, so a walk ends; how long it takes is
not fixed beforehand. A state is handed from step to step and never kept,
so that it can be changed in place.
-/
import XorSpan.Job

namespace XorSpan

/-- Lexicographic order on ranks. -/
abbrev RankLess : Nat × Nat → Nat × Nat → Prop := Prod.Lex (· < ·) (· < ·)

/-- What a step comes to. -/
inductive Stride (σ : Type) where
  /-- Nothing is left to do, and the state is as it was. -/
  | rest (s : σ)
  | fail (fault : Fault)
  /-- The next state, with the lines written on the way. -/
  | move (s : σ) (lines : List String)

/-- A loop that polls under `stage` before each step but the one that
rests. -/
structure Walk (σ : Type) where
  stage : Stage
  step : σ → Stride σ
  rank : σ → Nat × Nat
  descends : ∀ {s t : σ} {lines : List String},
    step s = .move t lines → RankLess (rank t) (rank s)

namespace Walk

variable {σ : Type}

theorem wellFounded_rankLess : WellFounded RankLess :=
  (Prod.lex ⟨(· < ·), Nat.lt_wfRel.wf⟩ ⟨(· < ·), Nat.lt_wfRel.wf⟩).wf

/-- The state in which the walk ends. -/
def run (w : Walk σ) (s : σ) : Job σ :=
  match _h : w.step s with
  | .rest t => pure t
  | .fail fault => do
      Job.poll w.stage
      throw fault
  | .move t lines => do
      Job.poll w.stage
      lines.forM Job.write
      w.run t
termination_by wellFounded_rankLess.wrap (w.rank s)
decreasing_by exact w.descends _h

/-- The lines that the walk writes from `s` on, up to its end or its
fault. -/
def lines (w : Walk σ) (s : σ) : List String :=
  match _h : w.step s with
  | .rest _ => []
  | .fail _ => []
  | .move t written => written ++ w.lines t
termination_by wellFounded_rankLess.wrap (w.rank s)
decreasing_by exact w.descends _h

end Walk

end XorSpan
