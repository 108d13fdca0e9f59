/-
What a cancelled drawing leaves behind. A script that is cut short has
been played up to the poll that was refused (`passed`), so its lines are
the first of the lines of the whole, and they do not become fewer if the
poll that is refused comes later (`Steady`).

Finding a combination and expanding it print nothing. The chart prints
its header before its first poll and its footer after its last; so when
it is cancelled, its header and some of its body have been printed, line
by line as they come in the whole, and no footer (`chart_interrupted`).
The text of a run is its lines, each with its line feed.
-/
import XorSpan.Proofs.Graph.Lines
import XorSpan.Proofs.Quiet

namespace XorSpan

namespace Job

variable {α β : Type} {t : Job α} {r : Except Fault α}
    {events first second : List Event}
  {signal signal' : Signal} {k n : Nat}

-- ============================================================ what is done

/-- The line that an event writes, if it writes one. -/
def Event.line? : Event → Option String
  | .write line => some line
  | .poll _ | .note _ => none

/-- The lines that a script writes. -/
def written (events : List Event) : List String := events.filterMap Event.line?

/-- The part of a script that is played under a signal, if `n` polls
have been made before it. -/
def passed (signal : Signal) : Nat → List Event → List Event
  | _, [] => []
  | n, e :: events =>
      if e.isPoll && signal n then []
      else e :: passed signal (n + e.isPoll.toNat) events

/-- The lines of a run under a signal. -/
def linesUnder (t : Job α) (signal : Signal) : List String :=
  (t.start signal).2.lines.toList

/-- Two scripts one after the other write the lines of both. -/
theorem written_append (first second : List Event) :
    written (first ++ second) = written first ++ written second :=
  List.filterMap_append

theorem perform_poll (stage : Stage) (signal : Signal) (p : Progress) :
    perform (.poll stage) signal p =
      if signal p.polls then
        .error (.cancelled stage) { p with polls := p.polls + 1 }
      else .ok () { p with polls := p.polls + 1 } := by
  have hpoll : perform (.poll stage) signal p =
      (if signal p.polls = true then throw (.cancelled stage) else pure () :
        EStateM Fault Progress Unit) { p with polls := p.polls + 1 } := rfl
  rw [hpoll]
  split <;> rfl

/-- The lines written are those of the part that was played. What was
there before is left in front of them. -/
theorem lines_play (events : List Event) (r : Except Fault α) (signal : Signal)
    (p : Progress) :
    (trail (play events r signal p)).lines.toList =
      p.lines.toList ++ written (passed signal p.polls events) := by
  induction events generalizing p with
  | nil => cases r <;> exact (List.append_nil _).symm
  | cons e events ih =>
    cases e with
    | poll stage =>
      cases h : signal p.polls with
      | true =>
        have hstop : perform (.poll stage) signal p =
            .error (.cancelled stage) { p with polls := p.polls + 1 } := by
          rw [perform_poll, h, if_pos rfl]
        rw [play_cons_of_error hstop, passed, h]
        exact (List.append_nil _).symm
      | false =>
        have hpass : perform (.poll stage) signal p =
            .ok () { p with polls := p.polls + 1 } := by
          rw [perform_poll, h, if_neg Bool.false_ne_true]
        rw [play_cons_of_ok hpass, ih, passed, h]
        rfl
    | write line =>
      have hwrite : perform (.write line) signal p =
          .ok () { p with lines := p.lines.push line } :=
        rfl
      rw [play_cons_of_ok hwrite, ih, passed, Array.toList_push,
        List.append_assoc]
      rfl
    | note notice =>
      have hnote : perform (.note notice) signal p =
          .ok () { p with notices := p.notices.push notice } := rfl
      rw [play_cons_of_ok hnote, ih, passed]
      rfl

/-- What a script has written under a signal are the lines of the part
that the signal lets pass. It does not matter what the script would
have come to. -/
theorem linesUnder_play (events : List Event) (r : Except Fault α)
    (signal : Signal) :
    linesUnder (play events r) signal = written (passed signal 0 events) := by
  unfold linesUnder
  rw [start_eq]
  exact lines_play events r signal {}

-- ============================================================== where it ends

/-- An event that is let pass is followed by what comes after it. A
poll counts as one; a notice or a line does not count. -/
theorem passed_cons (e : Event) (h : e.isPoll = true → signal n = false) :
    passed signal n (e :: events) =
      e :: passed signal (n + e.isPoll.toNat) events := by
  have hpass : (e.isPoll && signal n) = false := by
    cases hpoll : e.isPoll with
    | false => rfl
    | true => exact h hpoll
  rw [passed, hpass, if_neg Bool.false_ne_true]

/-- A poll that is refused ends the script, and is itself not played:
it leaves no line. -/
theorem passed_cons_of_refused {e : Event} (hpoll : e.isPoll = true)
    (h : signal n = true) :
    passed signal n (e :: events) = [] := by
  rw [passed, hpoll, h]
  rfl

/-- A signal that refuses less lets more be played. The two signals
need not be of one kind, as long as the one is given wherever the
other is. -/
theorem prefix_passed (h : ∀ n, signal' n = true → signal n = true) (n : Nat)
    (events : List Event) :
    passed signal n events <+: passed signal' n events := by
  induction events generalizing n with
  | nil => exact List.prefix_refl _
  | cons e events ih =>
    by_cases hstop : e.isPoll = true ∧ signal n = true
    · rw [passed_cons_of_refused hstop.1 hstop.2]
      exact List.nil_prefix
    · have hpass : e.isPoll = true → signal n = false :=
        fun hpoll => Bool.eq_false_iff.2 fun hn => hstop ⟨hpoll, hn⟩
      have hpass' : e.isPoll = true → signal' n = false :=
        fun hpoll => Bool.eq_false_iff.2 fun hn => hstop ⟨hpoll, h n hn⟩
      rw [passed_cons e hpass, passed_cons e hpass', List.prefix_cons_inj]
      exact ih _

/-- Nobody wants the script to stop, so it is played to its end. All
the lines of a run that nobody stops are therefore those of its
script. -/
theorem passed_never (n : Nat) (events : List Event) :
    passed .never n events = events := by
  induction events generalizing n with
  | nil => rfl
  | cons e events ih => rw [passed_cons e fun _ => rfl, ih]

/-- What is played of a script is its beginning. So a run that is cut
short has written a beginning of what it would have. -/
theorem prefix_passed_self (signal : Signal) (n : Nat) (events : List Event) :
    passed signal n events <+: events := by
  have hnever : ∀ n, Signal.never n = true → signal n = true :=
    fun _ h => absurd h Bool.false_ne_true
  have hprefix := prefix_passed hnever n events
  rw [passed_never] at hprefix
  exact hprefix

/-- After a script whose polls are all let pass, the next is played.
The polls of the first script are counted on. -/
theorem passed_append_of_le (h : n + polls first ≤ k) :
    passed (.after k) n (first ++ second) =
    first ++ passed (.after k) (n + polls first) second := by
  induction first generalizing n with
  | nil => rfl
  | cons e first ih =>
    rw [polls_cons, ← Nat.add_assoc] at h ⊢
    have hpass : e.isPoll = true → Signal.after k n = false := by
      intro hpoll
      rw [hpoll, Bool.toNat_true] at h
      exact decide_eq_false (by omega)
    rw [List.cons_append, passed_cons e hpass, ih h]
    rfl

/-- A signal that is not given before the last poll lets the whole
script pass. -/
theorem passed_of_le (h : n + polls events ≤ k) :
    passed (.after k) n events = events := by
  have happend : passed (.after k) n (events ++ []) =
      events ++ passed (.after k) (n + polls events) [] := passed_append_of_le h
  rw [List.append_nil] at happend
  exact happend.trans (List.append_nil _)

/-- What follows the poll that is refused does not matter. The run
ends in the first script, whatever the second would be. -/
theorem passed_append_of_lt (hn : n ≤ k) (h : k < n + polls first) :
    passed (.after k) n (first ++ second) = passed (.after k) n first := by
  induction first generalizing n with
  | nil => exact absurd h (Nat.not_lt.2 hn)
  | cons e first ih =>
    rw [polls_cons, ← Nat.add_assoc] at h
    rw [List.cons_append]
    by_cases hstop : e.isPoll = true ∧ k ≤ n
    · have hrefused : Signal.after k n = true := decide_eq_true hstop.2
      rw [passed_cons_of_refused hstop.1 hrefused,
        passed_cons_of_refused hstop.1 hrefused]
    · have hpass : e.isPoll = true → Signal.after k n = false :=
        fun hpoll => decide_eq_false fun hle => hstop ⟨hpoll, hle⟩
      have hle : n + e.isPoll.toNat ≤ k := by
        cases hpoll : e.isPoll with
        | false => exact hn
        | true => exact Nat.not_le.1 fun hle => hstop ⟨hpoll, hle⟩
      rw [passed_cons e hpass, passed_cons e hpass, ih hle h]

-- ================================================================ cancelled

/-- The signal stops the job at the poll of number `k`. -/
def Stops (t : Job α) (k : Nat) : Prop :=
  ∃ stage, (t.start (.after k)).1 = .error (.cancelled stage)

/-- A poll that is refused later does not leave less written, and a
run that is not cancelled has written what it writes when nobody stops
it. -/
structure Steady (t : Job α) : Prop where
  mono : ∀ k k', k ≤ k' → linesUnder t (.after k) <+: linesUnder t (.after k')
  full : ∀ k, ¬Stops t k → linesUnder t (.after k) = linesUnder t .never

/-- The beginning of a script writes the beginning of its lines. -/
theorem prefix_written (h : first <+: second) :
    written first <+: written second :=
  h.filterMap _

/-- A script that writes nothing does not when it is cut short. So no
matter how finding and expanding are stopped, the text is empty. -/
theorem written_passed_of_silent (h : written events = [])
    (signal : Signal) (n : Nat) :
    written (passed signal n events) = [] := by
  have hprefix := prefix_written (prefix_passed_self signal n events)
  rw [h] at hprefix
  exact List.prefix_nil.1 hprefix

/-- A script is steady: a signal that comes later lets it write all
that an earlier one did, and more behind it at most. -/
theorem Scripted.steady (h : Scripted t r) : Steady t := by
  obtain ⟨events, rfl⟩ := h
  refine ⟨?_, ?_⟩
  · intro k k' hk
    rw [linesUnder_play, linesUnder_play]
    refine prefix_written (prefix_passed ?_ 0 events)
    intro n hn
    exact decide_eq_true (Nat.le_trans hk (of_decide_eq_true hn))
  · intro k hk
    have hle : polls events ≤ k := by
      refine Nat.not_lt.1 fun hlt => hk ?_
      exact ((pollsTimes_play events r).stopped k hlt).1
    rw [linesUnder_play, linesUnder_play, passed_never,
      passed_of_le (by rwa [Nat.zero_add])]

/-- A script that is cancelled is so at one of its polls. The other
way to a cancellation would be a result that is one, and no pass has
such a result. -/
theorem Stops.lt_polls (h : Stops (play events r) k)
    (hr : ∀ stage, r ≠ .error (.cancelled stage)) :
    k < polls events := by
  obtain ⟨stage, hstage⟩ := h
  refine Nat.not_le.1 fun hle => hr stage ?_
  rw [((pollsTimes_play events r).passed k hle).1,
    Scripted.outcome_eq ⟨events, rfl⟩] at hstage
  exact hstage

/-- A job that writes nothing plays a script that does not. That is
asked of the run that nobody stops; a script has the same events in
every other. -/
theorem Scripted.exists_silent (h : Scripted t r) (ht : Quiet t) :
    ∃ events, t = play events r ∧ written events = [] := by
  obtain ⟨events, rfl⟩ := h
  have hlines := lines_play events r .never {}
  rw [ht .never {}, passed_never] at hlines
  exact ⟨events, rfl, hlines.symm⟩

/-- After a job that writes nothing, the lines are those of the next.
If the first job fails there are no lines at all. -/
theorem Scripted.lines_bind {f : α → Job β} (h : Scripted t r) (ht : Quiet t)
    (hf : ∀ a, ∃ r, Scripted (f a) r) :
    linesUnder (t >>= f) .never =
      match r with
      | .ok a => linesUnder (f a) .never
      | .error _ => [] := by
  obtain ⟨events, rfl, hsilent⟩ := h.exists_silent ht
  cases r with
  | error e =>
    rw [play_error_bind, linesUnder_play, passed_never]
    exact hsilent
  | ok a =>
    obtain ⟨r', later, hlater⟩ := hf a
    dsimp only
    rw [play_bind events later hlater, hlater, linesUnder_play,
      linesUnder_play, passed_never, passed_never, written_append, hsilent,
      List.nil_append]

end Job

-- =================================================================== walks

open Job

/-- A script of lines writes them. -/
theorem Job.written_map_write (lines : List String) :
    written (lines.map .write) = lines := by
  unfold written
  rw [List.filterMap_map]
  exact List.filterMap_some

/-- And it asks nobody, so it cannot be cut short. -/
theorem Job.polls_map_write (lines : List String) :
    polls (lines.map .write) = 0 := by
  unfold polls
  rw [List.countP_map, List.countP_eq_zero]
  intro line _
  exact Bool.false_ne_true

namespace Walk

variable {σ : Type} {w : Walk σ} {s : σ} {r : Except Fault σ}

/-- Writing the lines of a list is the script of them. -/
theorem forM_write (lines : List String) :
    lines.forM Job.write = play (lines.map .write) (.ok ()) := by
  induction lines with
  | nil => rfl
  | cons line lines ih =>
    show (Job.write line >>= fun _ => lines.forM Job.write) = _
    rw [ih]
    rfl

/-- What each move of the walk writes, from `s` on. -/
def writings (w : Walk σ) (s : σ) : List (List String) :=
  match _h : w.step s with
  | .rest _ => []
  | .fail _ => []
  | .move t written => written :: w.writings t
termination_by wellFounded_rankLess.wrap (w.rank s)
decreasing_by exact w.descends _h

/-- A walk that moves has one writing more than from where it gets to. -/
theorem writings_of_move {t : σ} {written : List String}
    (h : w.step s = .move t written) :
    w.writings s = written :: w.writings t := by
  rw [writings]
  split <;> simp_all

/-- A walk that is at its end has none to come, -/
theorem writings_of_rest {t : σ} (h : w.step s = .rest t) :
    w.writings s = [] := by
  rw [writings]
  split <;> simp_all

/-- and neither has one that fails. -/
theorem writings_of_fail {fault : Fault} (h : w.step s = .fail fault) :
    w.writings s = [] := by
  rw [writings]
  split <;> simp_all

/-- All the writings of a walk together are its lines. The writings
keep apart what is written between one poll and the next. -/
theorem Ends.flatten_writings (h : w.Ends s r) :
    (w.writings s).flatten = w.lines s := by
  induction h with
  | rest h => rw [writings_of_rest h, lines_of_rest h, List.flatten_nil]
  | fail h => rw [writings_of_fail h, lines_of_fail h, List.flatten_nil]
  | move h _ ih =>
    rw [writings_of_move h, lines_of_move h, List.flatten_cons, ih]

/-- What holds of the lines of every step holds of each writing. It is
proved along the walk, whether or not it comes to its end. -/
theorem forall_mem_writings {P : List String → Prop}
    (hstep : ∀ {s t : σ} {lines : List String}, w.step s = .move t lines →
      P lines) (s : σ) :
    ∀ lines ∈ w.writings s, P lines := by
  obtain ⟨r, hends⟩ := w.exists_ends s
  induction hends with
  | rest h =>
    rw [writings_of_rest h]
    exact List.forall_mem_nil _
  | fail h =>
    rw [writings_of_fail h]
    exact List.forall_mem_nil _
  | move h _ ih =>
    rw [writings_of_move h]
    exact List.forall_mem_cons.2 ⟨hstep h, ih⟩

/-- A walk plays a script that writes its lines, with a poll for each
move and one more if it fails. -/
theorem Ends.exists_script (h : w.Ends s r) :
    ∃ events, w.run s = play events r ∧ written events = w.lines s ∧
      polls events = (w.writings s).length + (!r.isOk).toNat := by
  induction h with
  | rest h =>
    exact ⟨[], run_of_rest h,
      (lines_of_rest h).symm, by rw [writings_of_rest h]; rfl⟩
  | fail h =>
    exact ⟨[.poll w.stage], run_of_fail h,
      (lines_of_fail h).symm, by rw [writings_of_fail h]; rfl⟩
  | @move s t lines r h _ ih =>
    obtain ⟨events, hrun, hwritten, hpolls⟩ := ih
    refine ⟨.poll w.stage :: (lines.map .write ++ events), ?_, ?_, ?_⟩
    · rw [run_of_move h, hrun, forM_write, play_append]
      rfl
    · show written (lines.map .write ++ events) = _
      rw [written_append, written_map_write, hwritten, lines_of_move h]
    · rw [polls_cons, polls_append, polls_map_write, hpolls, writings_of_move h,
        List.length_cons]
      show 1 + (0 + _) = _
      omega

/-- A walk whose steps write no lines writes none. It need not come to
its end for that, and a poll that is refused changes nothing of it. -/
theorem quiet_run (hsteps : ∀ {s t : σ} {lines : List String},
    w.step s = .move t lines → lines = [])
    (s : σ) : Quiet (w.run s) := by
  obtain ⟨r, hends⟩ := w.exists_ends s
  induction hends with
  | rest h =>
    rw [run_of_rest h]
    exact quiet_pure _
  | fail h =>
    rw [run_of_fail h]
    exact (quiet_poll _).bind fun _ => quiet_throw _
  | move h _ ih =>
    rw [run_of_move h, hsteps h]
    exact (quiet_poll _).bind fun _ => (quiet_pure _).bind fun _ => ih

end Walk

-- ======================================================= before the drawing

/-- No step of an expansion writes a line. -/
theorem Expansion.lines_of_move {base : Std.HashSet Bytes} {e t : Expansion}
    {lines : List String}
    (h : e.step base = .move t lines) : lines = [] := by
  unfold step at h
  split at h
  · cases h
  · dsimp only at h
    split at h
    · cases h
    · split at h
      · cases h
        rfl
      · split at h
        · cases h
        · cases h
          rfl

/-- Expanding a solution writes nothing. It is a walk whose steps have
no lines. -/
theorem Solution.quiet_graph (s : Solution) : Quiet s.graph := by
  unfold graph
  refine (quiet_visit _ _ _ _).bind fun seeded => ?_
  refine (Walk.quiet_run Expansion.lines_of_move seeded).bind fun e => ?_
  exact (quiet_note _).bind fun _ => quiet_pure _

/-- Finding a combination and expanding it plays a script that writes
nothing, and does not come to a cancellation by itself. -/
theorem exists_script_before_chart (target : Bytes) (pool : List Bytes) :
    ∃ events r, (Solution.find target pool >>= Solution.graph) = play events r ∧
      written events = [] ∧ ∀ stage, r ≠ .error (.cancelled stage) := by
  have hquiet := (Solution.quiet_find target pool).bind Solution.quiet_graph
  obtain ⟨r, hfind, hfinding⟩ := Solution.exists_scripted_find target pool
  cases r with
  | error e =>
    obtain ⟨events, hplay, hsilent⟩ :=
      (hfind.bind_error (f := Solution.graph)).exists_silent hquiet
    refine ⟨events, _, hplay, hsilent, ?_⟩
    rintro stage ⟨⟩
    cases hfinding with
    | refused reason => cases reason
  | ok s =>
    obtain ⟨r, hgraph, hdrawing⟩ := s.scripted_graph
    obtain ⟨events, hplay, hsilent⟩ := (hfind.bind hgraph).exists_silent hquiet
    refine ⟨events, r, hplay, hsilent, ?_⟩
    rintro stage rfl
    cases hdrawing

-- ================================================================ drawings

/-- The script of a chart: the header, the drawing, and what comes
last. -/
def chartScript (drawing : List Event) (last : List String) : List Event :=
  .write Parameters.chartHeader :: (drawing ++ last.map .write)

/-- All polls of a chart are made while it is drawn. -/
theorem polls_chartScript (drawing : List Event) (last : List String) :
    polls (chartScript drawing last) = polls drawing := by
  unfold chartScript
  rw [polls_cons, polls_append, polls_map_write]
  exact Nat.zero_add _

/-- A chart that is cut short ends in its drawing, after the header
and before what comes last. -/
theorem written_passed_chartScript {drawing : List Event}
    {last : List String} {n k : Nat}
    (hn : n ≤ k) (hk : k < n + polls (chartScript drawing last)) :
    written (passed (.after k) n (chartScript drawing last)) =
      Parameters.chartHeader :: written (passed (.after k) n drawing) := by
  rw [polls_chartScript] at hk
  unfold chartScript
  rw [passed_cons (.write Parameters.chartHeader)
    fun h => absurd h Bool.false_ne_true]
  show _ :: written (passed (.after k) n (drawing ++ last.map .write)) = _
  rw [passed_append_of_lt hn hk]

/-- The last line of a chart, if it is asked for. -/
def footing (footer : Bool) (lines : Nat) : List String :=
  if footer then [s!"{Parameters.chartComment} lines: {lines}"] else []

/-- There is one line in the footer, if it is asked for. -/
theorem length_footing (footer : Bool) (lines : Nat) :
    (footing footer lines).length = footer.toNat := by
  cases footer <;> rfl

/-- What is told of a drawing that has come to its end. -/
def Chart.Drawing.summary (g : Graph) (d : Chart.Drawing) : Chart.Summary :=
  ⟨d.nodeLines + d.leafLines + 1, d.nodeLines, d.leafLines,
    1 + g.stats.edges - (d.nodeLines + d.leafLines)⟩

/-- A chart is a script of a poll for each visit, with the footer made
of where the drawing ends. -/
theorem Graph.exists_drawingScript {g : Graph} {d : Chart.Drawing}
    (hends : (Chart.Drawing.walk g).Ends (Chart.Drawing.initial g) (.ok d))
    (footer : Bool) :
    ∃ drawing, g.chart footer =
        play (chartScript drawing (footing footer (d.summary g).lines))
          (.ok (d.summary g)) ∧
      written drawing = Chart.body g ∧
      polls drawing = ((Chart.Drawing.walk g).writings
        (Chart.Drawing.initial g)).length := by
  obtain ⟨drawing, hrun, hwritten, hpolls⟩ := hends.exists_script
  let last := footing footer (d.summary g).lines
  refine ⟨drawing, ?_, hwritten, hpolls⟩
  unfold Graph.chart
  refine play_bind (a := ()) [.write Parameters.chartHeader]
    (drawing ++ last.map .write) ?_
  rw [hrun]
  refine play_bind drawing (last.map .write) ?_
  cases footer with
  | false => rfl
  | true => rfl

/-- So every graph's chart is such a script, with its body as the
drawing and with or without one line behind it. -/
theorem Graph.exists_chartScript (g : Graph) (footer : Bool) :
    ∃ (drawing : List Event) (last : List String) (summary : Chart.Summary),
      g.chart footer = play (chartScript drawing last) (.ok summary) ∧
      written drawing = Chart.body g ∧ last.length = footer.toNat := by
  obtain ⟨d, hends, -, -⟩ := Chart.Drawing.exists_ends_ok g
  obtain ⟨drawing, hplay, hwritten, -⟩ := exists_drawingScript hends footer
  exact ⟨drawing, _, _, hplay, hwritten, length_footing ..⟩

/-- The header and the first lines of the body. -/
def PartOf (g : Graph) (lines : List String) : Prop :=
  ∃ shown, shown <+: Chart.body g ∧ lines = Parameters.chartHeader :: shown

/-- Where a chart is cut short, after `n` polls for other things, a
part of it has been written. -/
theorem partOf_of_lt {g : Graph} {drawing : List Event}
    {last : List String} {n k : Nat}
    (hbody : written drawing = Chart.body g) (hn : n ≤ k)
    (hk : k < n + polls (chartScript drawing last)) :
    PartOf g (written (passed (.after k) n (chartScript drawing last))) := by
  rw [written_passed_chartScript hn hk]
  refine ⟨_, ?_, rfl⟩
  rw [← hbody]
  exact prefix_written (prefix_passed_self ..)

/-- A drawing finds, expands, and then draws. Only the last of the
three writes. -/
theorem drawChart_eq (target : Bytes) (pool : List Bytes) (footer : Bool) :
    drawChart target pool footer =
      (Solution.find target pool >>= Solution.graph) >>= fun g =>
        g.chart footer := by
  unfold drawChart
  rw [bind_assoc]

/-- Cancelling a drawing does nothing to its text but end it early. A
chart that is cancelled has its header and the first lines of its
body, and no footer. A drawing from the start has no text if it is
cancelled at one of the polls that finding and expanding make, and is
such a part of a chart if it is cancelled later. In both, a later poll
leaves no less, and a run that is not cancelled all. -/
theorem chart_interrupted :
    (∀ (g : Graph) (footer : Bool),
      (∃ last, last.length = footer.toNat ∧ linesUnder (g.chart footer) .never =
        Parameters.chartHeader :: (Chart.body g ++ last)) ∧
      (∀ k, Stops (g.chart footer) k →
        PartOf g (linesUnder (g.chart footer) (.after k))) ∧
      Steady (g.chart footer)) ∧
    ∀ (target : Bytes) (pool : List Bytes) (footer : Bool),
      (∃ n, PollsTimes (Solution.find target pool >>= Solution.graph) n ∧
        ∀ k, Stops (drawChart target pool footer) k →
          (k < n → linesUnder (drawChart target pool footer) (.after k) = []) ∧
          (n ≤ k → ∃ g,
            (Solution.find target pool >>= Solution.graph).outcome = .ok g ∧
            PartOf g (linesUnder (drawChart target pool footer) (.after k)))) ∧
      Steady (drawChart target pool footer) := by
  constructor
  · intro g footer
    obtain ⟨drawing, last, summary, hplay, hbody, hlast⟩ :=
      g.exists_chartScript footer
    rw [hplay]
    refine ⟨⟨last, hlast, ?_⟩, ?_, Scripted.steady ⟨_, rfl⟩⟩
    · rw [linesUnder_play, passed_never, ← hbody]
      show _ :: written (drawing ++ last.map .write) = _
      rw [written_append, written_map_write]
    · intro k hk
      have hlt := hk.lt_polls fun _ h => nomatch h
      rw [linesUnder_play]
      exact partOf_of_lt hbody (Nat.zero_le k) (by rwa [Nat.zero_add])
  · intro target pool footer
    obtain ⟨before, r, hbefore, hsilent, hr⟩ :=
      exists_script_before_chart target pool
    rw [drawChart_eq, hbefore]
    cases r with
    | error e =>
      have he : ∀ stage, (.error e : Except Fault Chart.Summary) ≠
          .error (.cancelled stage) :=
        fun stage h => hr stage (by cases h; rfl)
      rw [play_error_bind]
      refine ⟨⟨polls before, pollsTimes_play _ _, ?_⟩, Scripted.steady ⟨_, rfl⟩⟩
      intro k hk
      have hlt := hk.lt_polls he
      refine ⟨fun _ => ?_, fun hle => absurd hlt (Nat.not_lt.2 hle)⟩
      rw [linesUnder_play]
      exact written_passed_of_silent hsilent _ _
    | ok g =>
      obtain ⟨drawing, last, summary, hplay, hbody, -⟩ :=
        g.exists_chartScript footer
      rw [play_bind (f := fun g : Graph => g.chart footer) before _ hplay]
      refine ⟨⟨polls before, pollsTimes_play _ _, ?_⟩, Scripted.steady ⟨_, rfl⟩⟩
      intro k hk
      have hlt := hk.lt_polls fun _ h => nomatch h
      rw [polls_append] at hlt
      refine ⟨fun hlt => ?_, fun hle => ⟨g,
        Scripted.outcome_eq ⟨before, rfl⟩, ?_⟩⟩
      · rw [linesUnder_play, passed_append_of_lt (Nat.zero_le k)
          (by rwa [Nat.zero_add])]
        exact written_passed_of_silent hsilent _ _
      · rw [linesUnder_play, passed_append_of_le (by rwa [Nat.zero_add]),
          written_append, hsilent, Nat.zero_add]
        exact partOf_of_lt hbody hle hlt

end XorSpan
