/-
Jobs: runs that can be cancelled from outside.

A job asks a signal now and then whether to go on, and fails when the
signal says no. Besides its result it leaves a trail of progress: how
often it asked, the lines it wrote to its output, and notices about its
progress for whoever wants to see them. The trail is kept when the job
fails.

Loops ask once before each of their steps. `Job.visit` is the loop over
a list; `Walk.lean` has the one over a work list.
-/
import XorSpan.Fault

namespace XorSpan

/-- What a cancellation signal answers to each poll, counted from 0:
`true` is a wish to stop. -/
abbrev Signal := Nat → Bool

namespace Signal

/-- Nobody wants the run to stop. -/
def never : Signal := fun _ => false

/-- Lets the first `k` polls pass and refuses all later ones. -/
def after (k : Nat) : Signal := fun poll => decide (k ≤ poll)

end Signal

/-- What a job has done so far. -/
structure Progress where
  polls : Nat := 0
  lines : Array String := #[]
  notices : Array String := #[]
deriving Inhabited

/-- The lines as text, each with its line feed. -/
def textOfLines (lines : Array String) : String :=
  lines.foldl (fun text line => text ++ line ++ "\n") ""

def Progress.text (p : Progress) : String := textOfLines p.lines

/-- A run under a signal. -/
abbrev Job := ReaderT Signal (EStateM Fault Progress)

namespace Job

variable {α β : Type}

/-- Asks the signal; a refusal is a fault in `stage`. -/
def poll (stage : Stage) : Job Unit := fun signal => do
  let p ← get
  set { p with polls := p.polls + 1 }
  if signal p.polls then throw (.cancelled stage)

def write (line : String) : Job Unit :=
  modify fun p => { p with lines := p.lines.push line }

def note (notice : String) : Job Unit :=
  modify fun p => { p with notices := p.notices.push notice }

/-- An outcome reached without asking. -/
def ofExcept : Except Fault α → Job α
  | .ok a => pure a
  | .error e => throw e

/-- The job with another fault in the place of its own. -/
def mapFault (f : Fault → Fault) (t : Job α) : Job α :=
  fun signal => (t signal).adaptExcept f

@[simp] theorem mapFault_id (t : Job α) : t.mapFault id = t := by
  funext signal p
  simp only [mapFault, EStateM.adaptExcept]
  cases t signal p <;> rfl

/-- Takes the items one after the other into `acc`, asking before
each. -/
def visit (stage : Stage) (step : β → α → Except Fault β) (acc : β) :
    List α → Job β
  | [] => pure acc
  | item :: items => do
      poll stage
      match step acc item with
      | .error e => throw e
      | .ok acc => visit stage step acc items

/-- Closes the receipt that a computation writes. -/
def receipt (name : String) (w : Receipt.Writer Unit) : Job Digest :=
  match Receipt.write name w with
  | .ok r => pure r.digest
  | .error e => throw (.receipt e)

/-- Outcome and trail of a job from the start. -/
def start (t : Job α) (signal : Signal) : Except Fault α × Progress :=
  match t signal {} with
  | .ok a p => (.ok a, p)
  | .error e p => (.error e, p)

/-- The outcome of a job that nobody stops. -/
def outcome (t : Job α) : Except Fault α := (t.start .never).1

end Job

end XorSpan
