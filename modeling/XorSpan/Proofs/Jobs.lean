/-
Jobs as scripts. A job asks its signal, writes lines and leaves notices,
and in the end comes to a result or a fault; nothing in the type says
that what it does is settled beforehand. For the jobs of this program it
is: each plays a fixed list of events and then comes to a fixed outcome,
and a signal can do no more than cut the list short.

`Scripted t r` says so of a job `t` and the outcome `r`. It is closed
under the ways in which jobs are put together: `bind`, the loop over a
list (`scripted_visit`) and the walk (`Walk.scripted_run`). So the
outcome of a job that nobody stops (`outcome_eq`) is found by computing
with outcomes alone, and every later proof about a pass starts there.
-/
import XorSpan.Walk

namespace XorSpan

namespace Job

variable {α β : Type} {t : Job α} {f : α → Job β} {r : Except Fault β}

-- ============================================================== scripts

/-- One thing that a job does besides computing. -/
inductive Event where
  | poll (stage : Stage)
  | write (line : String)
  | note (notice : String)

/-- Does one thing. -/
def perform : Event → Job Unit
  | .poll stage => Job.poll stage
  | .write line => Job.write line
  | .note notice => Job.note notice

/-- Does one thing after the other and then comes to an outcome. -/
def play (events : List Event) (r : Except Fault α) : Job α :=
  match events with
  | [] => ofExcept r
  | e :: events => do
      perform e
      play events r

/-- The job does a fixed list of things and then comes to `r`. -/
def Scripted (t : Job α) (r : Except Fault α) : Prop :=
  ∃ events, t = play events r

-- ============================================================= composition

/-- A result after a script is where the next job takes over. The
events are the same, whoever comes to see the result. -/
theorem play_ok_bind (events : List Event) (a : α) (f : α → Job β) :
    play events (.ok a) >>= f = play events (.ok ()) >>= fun _ => f a := by
  induction events with
  | nil => simp [play, ofExcept]
  | cons e events ih =>
    simp only [play, bind_assoc]
    congr 1
    funext _
    exact ih

/-- A fault ends the script, whatever was to follow. -/
theorem play_error_bind (events : List Event) (e : Fault) (f : α → Job β) :
    play events (.error e) >>= f = play events (.error e) := by
  induction events with
  | nil => rfl
  | cons _ events ih =>
    simp only [play, bind_assoc]
    congr 1
    funext _
    exact ih

/-- Two scripts in a row are one script, if the first has a result. -/
theorem play_append (first second : List Event) (r : Except Fault β) :
    (play first (.ok ()) >>= fun _ => play second r) =
      play (first ++ second) r := by
  induction first with
  | nil => simp [play, ofExcept]
  | cons e first ih =>
    simp only [play, List.cons_append, bind_assoc]
    congr 1
    funext _
    exact ih

theorem scripted_ofExcept (r : Except Fault α) : Scripted (ofExcept r) r :=
  ⟨[], rfl⟩

/-- A result is a script without events. -/
theorem scripted_pure (a : α) : Scripted (pure a) (.ok a) :=
  scripted_ofExcept (.ok a)

/-- So is a fault. -/
theorem scripted_throw (e : Fault) : Scripted (throw e : Job α) (.error e) :=
  scripted_ofExcept (.error e)

/-- A single event is a script of its own. If it is a poll it may be
refused, and then the script is cut short like any other. -/
theorem scripted_perform (e : Event) : Scripted (perform e) (.ok ()) :=
  ⟨[e], by simp [play, ofExcept]⟩

/-- Asking whether to go on is an event, so a poll that is let pass
comes to nothing but the next. -/
theorem scripted_poll (stage : Stage) : Scripted (Job.poll stage) (.ok ()) :=
  scripted_perform (.poll stage)

/-- Leaving a notice is one as well. -/
theorem scripted_note (notice : String) : Scripted (Job.note notice) (.ok ()) :=
  scripted_perform (.note notice)

/-- A result is handed on to the next job. The two scripts are played
one after the other. -/
theorem Scripted.bind {a : α} (ht : Scripted t (.ok a))
    (hf : Scripted (f a) r) :
    Scripted (t >>= f) r := by
  obtain ⟨first, rfl⟩ := ht
  obtain ⟨second, hs⟩ := hf
  refine ⟨first ++ second, ?_⟩
  rw [play_ok_bind, hs, play_append]

/-- A fault is not. The next job is not begun, and the script is that
of the first. -/
theorem Scripted.bind_error {e : Fault} (ht : Scripted t (.error e)) :
    Scripted (t >>= f) (.error e) := by
  obtain ⟨events, rfl⟩ := ht
  exact ⟨events, play_error_bind events e f⟩

/-- The outcome of two jobs in a row, in one line. The next job has to
be scripted only for the results that the first can have. -/
theorem Scripted.andThen {a : Except Fault α} {g : α → Except Fault β}
    (ht : Scripted t a) (hf : ∀ x, a = .ok x → Scripted (f x) (g x)) :
    Scripted (t >>= f) (a >>= g) := by
  cases a with
  | error e => exact ht.bind_error
  | ok x => exact ht.bind (hf x rfl)

-- ================================================================= loops

/-- A step that does not fail leaves the rest of the loop. It is used
to unroll loops one item at a time. -/
theorem foldlM_cons_ok {step : β → α → Except Fault β} {acc next : β} {item : α}
    (h : step acc item = .ok next) (items : List α) :
    (item :: items).foldlM step acc = items.foldlM step next := by
  rw [List.foldlM_cons, h]
  rfl

/-- A loop over a list comes to what its steps come to. There is a
poll before each item, and the steps themselves ask nobody. -/
theorem scripted_visit (stage : Stage) (step : β → α → Except Fault β) (acc : β)
    (items : List α) :
    Scripted (visit stage step acc items) (items.foldlM step acc) := by
  induction items generalizing acc with
  | nil => exact scripted_pure acc
  | cons item items ih =>
    rw [visit, List.foldlM_cons]
    refine (scripted_poll stage).bind ?_
    cases h : step acc item with
    | error e => exact scripted_throw e
    | ok next => exact ih next

/-- A loop whose steps cannot fail is a fold. That is how marks are
made and leaves are scanned. -/
theorem scripted_visit_ok (stage : Stage) (step : β → α → β) (acc : β)
    (items : List α) :
    Scripted (visit stage (fun acc item => .ok (step acc item)) acc items)
      (.ok (items.foldl step acc)) := by
  have h :
      items.foldlM (fun acc item =>
        (.ok (step acc item) : Except Fault β)) acc =
      .ok (items.foldl step acc) := List.foldlM_pure ..
  rw [← h]
  exact scripted_visit stage _ acc items

/-- A loop over a list, the body of which is a job. The loop comes to
what a loop over the results of its bodies would. -/
theorem scripted_foldlM {step : β → α → Job β} {next : β → α → Except Fault β}
    (hstep : ∀ acc item, Scripted (step acc item) (next acc item)) (acc : β)
    (items : List α) :
    Scripted (items.foldlM step acc) (items.foldlM next acc) := by
  induction items generalizing acc with
  | nil => exact scripted_pure acc
  | cons item items ih =>
    rw [List.foldlM_cons, List.foldlM_cons]
    exact (hstep acc item).andThen fun acc' _ => ih acc'

-- =============================================================== outcomes

/-- What a run came to, without its trail. -/
def verdict {σ : Type} : EStateM.Result Fault σ α → Except Fault α
  | .ok a _ => .ok a
  | .error e _ => .error e

/-- The outcome of a job is its verdict under the signal that is never
given, from the very start. -/
theorem outcome_eq_verdict (t : Job α) : t.outcome = verdict (t .never {}) := by
  unfold outcome start
  cases t .never {} <;> rfl

/-- A signal that never stops anything lets every event pass. So
nothing that is asked for along a script can end it. -/
theorem perform_never (e : Event) (p : Progress) :
    ∃ q, perform e .never p = .ok () q := by
  cases e with
  | poll stage => exact ⟨{ p with polls := p.polls + 1 }, rfl⟩
  | write line => exact ⟨{ p with lines := p.lines.push line }, rfl⟩
  | note notice => exact ⟨{ p with notices := p.notices.push notice }, rfl⟩

/-- Under that signal a script is played to its end, and comes to its
result, whatever has been done before it. -/
theorem verdict_play_never (events : List Event) (r : Except Fault α)
    (p : Progress) :
    verdict (play events r .never p) = r := by
  induction events generalizing p with
  | nil => cases r <;> rfl
  | cons e events ih =>
    obtain ⟨q, hq⟩ := perform_never e p
    have hstep : play (e :: events) r .never p = play events r .never q := by
      show (EStateM.bind (perform e .never) fun _ => play events r .never) p = _
      simp only [EStateM.bind, hq]
    rw [hstep]
    exact ih q

/-- A scripted job that nobody stops comes to its outcome. All results
about outcomes go through this lemma: a run is shown to be scripted,
and then the signal is forgotten. -/
theorem Scripted.outcome_eq {r : Except Fault α} (h : Scripted t r) :
    t.outcome = r := by
  obtain ⟨events, rfl⟩ := h
  rw [outcome_eq_verdict, verdict_play_never]

/-- The outcome of two jobs in a row is that of the first handed to
the second. -/
theorem Scripted.outcome_bind {a : Except Fault α} (ht : Scripted t a)
    (hf : ∀ x, ∃ r, Scripted (f x) r) : (t >>= f).outcome = a >>= fun x =>
      (f x).outcome := by
  refine (ht.andThen (g := fun x => (f x).outcome) ?_).outcome_eq
  intro x _
  obtain ⟨r, hr⟩ := hf x
  rw [hr.outcome_eq]
  exact hr

end Job

-- ================================================================== walks

namespace Walk

variable {σ : Type}

/-- What a walk from a state comes to: its steps one after the other. -/
inductive Ends (w : Walk σ) : σ → Except Fault σ → Prop where
  | rest {s t : σ} (h : w.step s = .rest t) : Ends w s (.ok t)
  | fail {s : σ} {fault : Fault} (h : w.step s = .fail fault) :
      Ends w s (.error fault)
  | move {s t : σ} {lines : List String} {r : Except Fault σ}
      (h : w.step s = .move t lines)
      (later : Ends w t r) : Ends w s r

/-- Every walk ends, since no rank can fall for ever. It may rest or
fail; either way it does so after finitely many steps. -/
theorem exists_ends (w : Walk σ) (s : σ) : ∃ r, w.Ends s r := by
  induction h : w.rank s using wellFounded_rankLess.induction
    generalizing s with
  | _ rank ih =>
    subst h
    cases hs : w.step s with
    | rest t => exact ⟨_, .rest hs⟩
    | fail fault => exact ⟨_, .fail hs⟩
    | move t lines =>
      obtain ⟨r, hr⟩ := ih (w.rank t) (w.descends hs) t rfl
      exact ⟨r, .move hs hr⟩

/-- Writing lines cannot fail, and nobody is asked in between. -/
theorem scripted_lines (lines : List String) :
    Job.Scripted (lines.forM Job.write) (.ok ()) := by
  induction lines with
  | nil => exact Job.scripted_pure ()
  | cons line lines ih =>
    show Job.Scripted (Job.write line >>= fun _ => lines.forM Job.write) _
    exact (Job.scripted_perform (.write line)).bind ih

/-- What a walk does at the end of its steps, at a step that fails,
and at one that leads on. -/
theorem run_of_rest {w : Walk σ} {s t : σ} (h : w.step s = .rest t) :
    w.run s = pure t := by
  rw [run]
  split <;> simp_all

/-- A step that fails does so after the poll that comes before every
step. -/
theorem run_of_fail {w : Walk σ} {s : σ} {fault : Fault}
    (h : w.step s = .fail fault) :
    w.run s = (Job.poll w.stage >>= fun _ => throw fault) := by
  rw [run]
  split <;> simp_all

/-- A step that leads on writes its lines before the next poll. -/
theorem run_of_move {w : Walk σ} {s t : σ} {lines : List String}
    (h : w.step s = .move t lines) :
    w.run s = (Job.poll w.stage >>= fun _ => lines.forM Job.write >>=
      fun _ => w.run t) := by
  rw [run]
  split <;> simp_all

/-- The walk as a job comes to where its steps lead. What it polls and
writes on the way is its script. -/
theorem Ends.scripted_run {w : Walk σ} {s : σ} {r : Except Fault σ}
    (h : w.Ends s r) :
    Job.Scripted (w.run s) r := by
  induction h with
  | rest h =>
    rw [run_of_rest h]
    exact Job.scripted_pure _
  | fail h =>
    rw [run_of_fail h]
    exact (Job.scripted_poll _).bind (Job.scripted_throw _)
  | move h _ ih =>
    rw [run_of_move h]
    exact (Job.scripted_poll _).bind ((scripted_lines _).bind ih)

/-- Induction along a walk that does not fail, from its end back. What
is to be shown is shown for the state at rest, and handed back over
each move. -/
@[elab_as_elim]
theorem Ends.induction_ok {w : Walk σ} {t : σ}
    {motive : (s : σ) → w.Ends s (.ok t) → Prop}
    (rest : ∀ s (h : w.step s = .rest t), motive s (.rest h))
    (move : ∀ s u lines (h : w.step s = .move u lines)
      (later : w.Ends u (.ok t)),
      motive u later → motive s (.move h later))
    {s : σ} (h : w.Ends s (.ok t)) : motive s h := by
  suffices hall : ∀ r (h : w.Ends s r) (hr : r = .ok t),
      motive s (hr ▸ h) from hall _ h rfl
  clear h
  intro r h
  induction h with
  | rest h =>
    rintro ⟨⟩
    exact rest _ h
  | fail => exact fun hr => nomatch hr
  | move h later ih =>
    intro hr
    subst hr
    exact move _ _ _ h later (ih rfl)

/-- What one step keeps, the whole walk keeps. So an invariant that
holds at the start holds where the walk rests. -/
theorem Ends.keeps {w : Walk σ} {s t : σ} {P : σ → Prop}
    (hstep : ∀ {s t : σ} {lines : List String}, P s →
      w.step s = .move t lines → P t)
    (h : w.Ends s (.ok t)) (hs : P s) : ∃ u, P u ∧ w.step u = .rest t := by
  induction h using Ends.induction_ok with
  | rest s h => exact ⟨s, hs, h⟩
  | move s u lines h _ ih => exact ih (hstep hs h)

/-- A walk that fails does so in a step from a state with all that was
kept. That is how it is found what a failure means. -/
theorem Ends.keeps_fault {w : Walk σ} {s : σ} {fault : Fault} {P : σ → Prop}
    (hstep : ∀ {s t : σ} {lines : List String}, P s →
      w.step s = .move t lines → P t)
    (h : w.Ends s (.error fault)) (hs : P s) :
    ∃ u, P u ∧ w.step u = .fail fault := by
  generalize hr : Except.error fault = r at h
  induction h with
  | rest => cases hr
  | fail h =>
    cases hr
    exact ⟨_, hs, h⟩
  | move h _ ih => exact ih (hstep hs h) hr

/-- The lines of a walk are those of its next step, and then those of
where it gets to; -/
theorem lines_of_move {w : Walk σ} {s t : σ} {written : List String}
    (h : w.step s = .move t written) : w.lines s = written ++ w.lines t := by
  rw [lines]
  split <;> simp_all

/-- at its end there are none left, -/
theorem lines_of_rest {w : Walk σ} {s t : σ} (h : w.step s = .rest t) :
    w.lines s = [] := by
  rw [lines]
  split <;> simp_all

/-- and a step that fails has none of its own. -/
theorem lines_of_fail {w : Walk σ} {s : σ} {fault : Fault}
    (h : w.step s = .fail fault) :
    w.lines s = [] := by
  rw [lines]
  split <;> simp_all

end Walk

end XorSpan
