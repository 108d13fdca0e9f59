/-
Passes that write no lines. Asking the signal and leaving notices does
not count as writing; so a job put together from these alone leaves the
output as it was, whatever the signal and however it ends. Finding a
combination is such a job (`Solution.quiet_find`): when it fails, nothing
has been printed yet.
-/
import XorSpan.Proofs.Cancellation

namespace XorSpan

namespace Job

variable {α β : Type} {t : Job α} {f : α → Job β}

/-- The job writes no lines. -/
def Quiet (t : Job α) : Prop := ∀ signal p, (trail (t signal p)).lines = p.lines

theorem quiet_pure (a : α) : Quiet (pure a : Job α) := fun _ _ => rfl

theorem quiet_throw (e : Fault) : Quiet (throw e : Job α) := fun _ _ => rfl

theorem quiet_note (notice : String) : Quiet (Job.note notice) := fun _ _ => rfl

/-- Asking whether to go on writes nothing, whatever the answer. -/
theorem quiet_poll (stage : Stage) : Quiet (Job.poll stage) := by
  intro signal p
  have hpoll : Job.poll stage signal p =
      (if signal p.polls = true then throw (.cancelled stage) else pure () :
        EStateM Fault Progress Unit) { p with polls := p.polls + 1 } := rfl
  rw [hpoll]
  split <;> rfl

theorem quiet_ofExcept (r : Except Fault α) : Quiet (ofExcept r) := by
  cases r with
  | ok a => exact quiet_pure a
  | error e => exact quiet_throw e

/-- Two quiet jobs in a row are quiet, also if the first one fails. -/
theorem Quiet.bind (ht : Quiet t)
    (hf : ∀ a, Quiet (f a)) : Quiet (t >>= f) := by
  intro signal p
  have hlines := ht signal p
  show (trail ((EStateM.bind (t signal) fun a => f a signal) p)).lines = p.lines
  rw [EStateM.bind]
  cases hrun : t signal p with
  | ok a q =>
    rw [hrun] at hlines
    exact (hf a signal q).trans hlines
  | error e q =>
    rw [hrun] at hlines
    exact hlines

/-- A loop that only asks and computes is quiet. -/
theorem quiet_visit (stage : Stage) (step : β → α → Except Fault β) (acc : β)
    (items : List α) :
    Quiet (visit stage step acc items) := by
  induction items generalizing acc with
  | nil => exact quiet_pure acc
  | cons item items ih =>
    rw [visit]
    apply (quiet_poll stage).bind
    intro _
    cases step acc item with
    | error e => exact quiet_throw e
    | ok next => exact ih next

theorem quiet_foldlM {step : β → α → Job β}
    (hstep : ∀ acc item, Quiet (step acc item)) (acc : β)
    (items : List α) : Quiet (items.foldlM step acc) := by
  induction items generalizing acc with
  | nil => exact quiet_pure acc
  | cons item items ih =>
    rw [List.foldlM_cons]
    exact (hstep acc item).bind ih

/-- A job of which the first part writes no lines, and fails, prints
nothing. -/
theorem Quiet.text_bind_of_error {e : Fault} (ht : Quiet t)
    (h : t.outcome = .error e) :
    ((t >>= f).start .never).2.text = "" := by
  have hlines := ht .never {}
  rw [start_eq]
  show textOfLines
    (trail ((EStateM.bind (t .never) fun a => f a .never) {})).lines = ""
  rw [outcome_eq_verdict] at h
  rw [EStateM.bind]
  cases hrun : t .never {} with
  | ok a q =>
    rw [hrun] at h
    cases h
  | error e q =>
    rw [hrun] at hlines
    show textOfLines q.lines = ""
    rw [show q.lines = #[] from hlines]
    rfl

end Job

open Job

/-- A position of the sweep writes nothing; it may leave a notice. -/
theorem Sweep.quiet_step (s : Sweep) (position : Nat) :
    Quiet (s.step position) := by
  unfold step
  refine (quiet_poll _).bind fun _ =>
    (quiet_visit _ _ _ _).bind fun balance => ?_
  cases s.working.find? (·.testBit (s.bitOf position)) with
  | none => exact quiet_throw _
  | some pivot => exact (quiet_visit _ _ _ _).bind fun e => quiet_pure _

/-- Finding a combination writes nothing. -/
theorem Solution.quiet_find (target : Bytes) (pool : List Bytes) :
    Quiet (find target pool) := by
  have hsweep : ∀ s, Quiet (ofSweep target pool s) := by
    intro s
    unfold ofSweep
    split
    · exact quiet_throw _
    · exact (quiet_ofExcept _).bind fun _ => (quiet_note _).bind fun _ =>
        (quiet_note _).bind fun _ => quiet_pure _
  have hrun : Quiet (Sweep.initial target pool).run :=
    quiet_foldlM Sweep.quiet_step _ _
  unfold find
  refine (quiet_ofExcept _).bind fun _ => (quiet_poll _).bind fun _ => ?_
  split
  · exact quiet_pure _
  · exact hrun.bind hsweep

end XorSpan
