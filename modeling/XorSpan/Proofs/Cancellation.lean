/-
Cancellation. A job that is scripted asks its signal at the polls of its
script and nowhere else. So a signal that lets the first `k` polls pass
and refuses all later ones either comes too late, and then nothing about
the run is different, or it stops the job at the poll of number `k`
(`PollsTimes`, `pollsTimes_play`).

What is left is to see that the passes of the program are scripted
whatever they are given, how many polls their scripts have, and that a
checked answer plays the script of an answer three times over
(`cancellation_transparent`).
-/
import XorSpan.Proofs.Answers

namespace XorSpan

namespace Job

variable {α β : Type} {t : Job α} {f : α → Job β} {r : Except Fault α}
    {events : List Event}
  {k : Nat}

-- ================================================================= scripts

/-- The event asks the signal. -/
def Event.isPoll : Event → Bool
  | .poll _ => true
  | .write _ | .note _ => false

/-- How often a script asks. -/
def polls (events : List Event) : Nat := events.countP Event.isPoll

/-- What a run leaves behind, however it ended. -/
def trail {σ : Type} : EStateM.Result Fault σ α → σ
  | .ok _ p => p
  | .error _ p => p

/-- A job is started with nothing done yet, and what is asked of it is
its verdict and its trail. -/
theorem start_eq (t : Job α) (signal : Signal) :
    t.start signal = (verdict (t signal {}), trail (t signal {})) := by
  unfold start
  cases t signal {} <;> rfl

/-- A script goes on after an event that is let pass. What it has done
so far goes on with it. -/
theorem play_cons_of_ok {e : Event} {signal : Signal} {p q : Progress}
    (h : perform e signal p = .ok () q) :
    play (e :: events) r signal p = play events r signal q := by
  show (EStateM.bind (perform e signal) fun _ => play events r signal) p = _
  simp only [EStateM.bind, h]

/-- A script ends with the event that is refused. -/
theorem play_cons_of_error {e : Event} {signal : Signal}
    {p q : Progress} {fault : Fault}
    (h : perform e signal p = .error fault q) :
    play (e :: events) r signal p = .error fault q := by
  show (EStateM.bind (perform e signal) fun _ => play events r signal) p = _
  simp only [EStateM.bind, h]

/-- An event under any signal: it is let pass, or it is a poll and the
job is cancelled. -/
theorem perform_cases (e : Event) (signal : Signal) (p : Progress) :
    (∃ q, perform e signal p = .ok () q ∧ q.polls = p.polls + e.isPoll.toNat ∧
      (e.isPoll = true → signal p.polls = false)) ∨
    ∃ stage q, perform e signal p = .error (.cancelled stage) q ∧
    q.polls = p.polls + 1 ∧
      e.isPoll = true ∧ signal p.polls = true := by
  cases e with
  | poll stage =>
    have hpoll : perform (.poll stage) signal p =
        (if signal p.polls = true then throw (.cancelled stage) else pure () :
          EStateM Fault Progress Unit) { p with polls := p.polls + 1 } := rfl
    cases h : signal p.polls with
    | false =>
      refine .inl ⟨{ p with polls := p.polls + 1 }, ?_, rfl, fun _ => rfl⟩
      rw [hpoll, h]
      rfl
    | true =>
      refine .inr ⟨stage, { p with polls := p.polls + 1 }, ?_, rfl, rfl, rfl⟩
      rw [hpoll, h]
      rfl
  | write line =>
    exact .inl ⟨{ p with lines := p.lines.push line }, rfl, rfl,
      fun h => nomatch h⟩
  | note notice =>
    exact .inl ⟨{ p with notices := p.notices.push notice }, rfl, rfl,
      fun h => nomatch h⟩

/-- A script has a poll more if its first event is one. -/
theorem polls_cons (e : Event) (events : List Event) :
    polls (e :: events) = e.isPoll.toNat + polls events := by
  unfold polls
  rw [List.countP_cons]
  cases e.isPoll
  · rw [if_neg Bool.false_ne_true, Nat.add_zero]
    exact (Nat.zero_add _).symm
  · rw [if_pos rfl]
    exact Nat.add_comm _ _

/-- Two scripts one after the other have the polls of both. -/
theorem polls_append (first second : List Event) :
    polls (first ++ second) = polls first + polls second := List.countP_append

/-- Under any signal a script is played to its end, or cut short. So a
signal can make no other difference to what a run comes to. -/
theorem verdict_play (events : List Event) (r : Except Fault α)
    (signal : Signal) (p : Progress) :
    verdict (play events r signal p) = r ∨
      ∃ stage, verdict (play events r signal p) =
        .error (.cancelled stage) := by
  induction events generalizing p with
  | nil => exact .inl (by cases r <;> rfl)
  | cons e events ih =>
    rcases perform_cases e signal p with ⟨q, hq, -, -⟩ | ⟨stage, q, hq, -, -, -⟩
    · rw [play_cons_of_ok hq]
      exact ih q
    · rw [play_cons_of_error hq]
      exact .inr ⟨stage, rfl⟩

/-- A signal that lets all polls of a script pass changes nothing. All
of them are made, and counted. -/
theorem play_of_le {p : Progress} (h : p.polls + polls events ≤ k) :
    verdict (play events r (.after k) p) = r ∧
      (trail (play events r (.after k) p)).polls = p.polls + polls events := by
  induction events generalizing p with
  | nil => cases r <;> exact ⟨rfl, rfl⟩
  | cons e events ih =>
    rw [polls_cons] at h ⊢
    rcases perform_cases e (.after k) p with
      ⟨q, hq, hpolls, -⟩ | ⟨_, _, _, _, hpoll, hstop⟩
    · rw [play_cons_of_ok hq, ← Nat.add_assoc, ← hpolls]
      exact ih (by omega)
    · rw [hpoll] at h
      have hle : k ≤ p.polls := of_decide_eq_true hstop
      exact absurd h (by rw [Bool.toNat_true]; omega)

/-- A signal that refuses the poll of number `k` stops a script that
comes to it, and no poll is made after that. -/
theorem play_of_lt {p : Progress} (hp : p.polls ≤ k)
    (h : k < p.polls + polls events) :
    (∃ stage, verdict (play events r (.after k) p) =
      .error (.cancelled stage)) ∧
      (trail (play events r (.after k) p)).polls = k + 1 := by
  induction events generalizing p with
  | nil => exact absurd h (Nat.not_lt.2 hp)
  | cons e events ih =>
    rw [polls_cons] at h
    rcases perform_cases e (.after k) p with
      ⟨q, hq, hpolls, hpass⟩ | ⟨stage, q, hq, hpolls, hpoll, hstop⟩
    · rw [play_cons_of_ok hq]
      refine ih ?_ (by omega)
      cases hpoll : e.isPoll with
      | false =>
        rw [hpoll] at hpolls
        rw [hpolls]
        exact hp
      | true =>
        have hlt : p.polls < k :=
          Nat.not_le.1 (of_decide_eq_false (hpass hpoll))
        rw [hpolls, hpoll]
        exact hlt
    · rw [play_cons_of_error hq]
      have hle : k ≤ p.polls := of_decide_eq_true hstop
      refine ⟨⟨stage, rfl⟩, ?_⟩
      show q.polls = k + 1
      omega

-- ================================================================== polling

/-- The job asks its signal `n` times. If the signal lets `n` polls
pass, the outcome is what it is without one; if it refuses an earlier
poll, the job is cancelled there. -/
structure PollsTimes (t : Job α) (n : Nat) : Prop where
  passed : ∀ k, n ≤ k → (t.start (.after k)).1 = t.outcome ∧
    (t.start (.after k)).2.polls = n
  stopped : ∀ k < n,
    (∃ stage, (t.start (.after k)).1 = .error (.cancelled stage)) ∧
    (t.start (.after k)).2.polls = k + 1

/-- A script polls as often as it has polls: with fewer it is
cancelled, and with that many it comes to its result. -/
theorem pollsTimes_play (events : List Event) (r : Except Fault α) :
    PollsTimes (play events r) (polls events) where
  passed k hk := by
    have hle : ({} : Progress).polls + polls events ≤ k := by
      rw [Nat.zero_add]
      exact hk
    obtain ⟨hverdict, hpolls⟩ := play_of_le (r := r) hle
    rw [outcome_eq_verdict, verdict_play_never, start_eq]
    exact ⟨hverdict, hpolls.trans (Nat.zero_add _)⟩
  stopped k hk := by
    have hlt : k < ({} : Progress).polls + polls events := by
      rw [Nat.zero_add]
      exact hk
    rw [start_eq]
    exact play_of_lt (Nat.zero_le k) hlt

/-- So every scripted job has its number of polls. -/
theorem exists_pollsTimes (h : ∃ r, Scripted t r) : ∃ n, PollsTimes t n := by
  obtain ⟨r, events, rfl⟩ := h
  exact ⟨_, pollsTimes_play events r⟩

/-- The number of polls is the job's own. With one poll less it would
be cancelled, and with one more it would not. -/
theorem PollsTimes.unique {m n : Nat} (hm : PollsTimes t m)
    (hn : PollsTimes t n) : m = n := by
  rw [← (hm.passed (max m n) (Nat.le_max_left m n)).2,
    (hn.passed _ (Nat.le_max_right m n)).2]

/-- A job that begins with a poll can be stopped there. That is how it
is seen that an accepted input asks at least once. -/
theorem PollsTimes.pos_of_poll {stage : Stage} {f : Unit → Job α} {n : Nat}
    (h : PollsTimes (Job.poll stage >>= f) n) : 0 < n := by
  have hstopped : ((Job.poll stage >>= f).start (.after 0)).2.polls = 1 := rfl
  refine Nat.pos_of_ne_zero fun hzero => ?_
  rw [(h.passed 0 (Nat.le_of_eq hzero)).2, hzero] at hstopped
  cases hstopped

/-- A scripted job under any signal. It is the form in which later
proofs use scripts: the outcome, or a cancellation. -/
theorem Scripted.start_cases (h : Scripted t r) (signal : Signal) :
    (t.start signal).1 = r ∨ ∃ stage,
    (t.start signal).1 = .error (.cancelled stage) := by
  obtain ⟨events, rfl⟩ := h
  rw [start_eq]
  exact verdict_play events r signal {}

/-- A scripted job that comes through, under whatever signal, comes to
its outcome. -/
theorem Scripted.eq_ok_of_run {signal : Signal} {p q : Progress} {a : α}
    (h : Scripted t r)
    (hrun : t signal p = .ok a q) : r = .ok a := by
  obtain ⟨events, rfl⟩ := h
  have hverdict := verdict_play events r signal p
  rw [hrun] at hverdict
  rcases hverdict with heq | ⟨stage, hcancelled⟩
  · exact heq.symm
  · cases hcancelled

-- ============================================================= composition

/-- A job in two parts is scripted if both are, whatever the first one
hands on. -/
theorem exists_scripted_bind (ht : ∃ r, Scripted t r)
    (hf : ∀ a, ∃ r, Scripted (f a) r) :
    ∃ r, Scripted (t >>= f) r := by
  obtain ⟨r, ht⟩ := ht
  cases r with
  | error e => exact ⟨_, ht.bind_error⟩
  | ok a =>
    obtain ⟨r, hr⟩ := hf a
    exact ⟨r, ht.bind hr⟩

/-- A result after a script, and the script from there on. It is for
runs whose first part is known event by event. -/
theorem play_bind {a : α} {r : Except Fault β} (first second : List Event)
    (h : f a = play second r) :
    play first (.ok a) >>= f = play (first ++ second) r := by
  rw [play_ok_bind, h, play_append]

/-- Making a receipt is scripted, whether it succeeds or is refused. -/
theorem exists_scripted_receipt (name : String) (w : Receipt.Writer Unit) :
    ∃ r, Scripted (Job.receipt name w) r := by
  cases h : Receipt.write name w with
  | ok r => exact ⟨_, scripted_receipt h⟩
  | error e => exact ⟨_, scripted_receipt_error h⟩

-- ================================================================= results

/-- Some run that nobody stops has this result. -/
def ComesTo (t : Job α) (a : α) : Prop := ∃ p q, t .never p = .ok a q

/-- What a job has as its outcome it comes to, under the signal that
is never given. -/
theorem comesTo_of_outcome {a : α} (h : t.outcome = .ok a) : ComesTo t a := by
  rw [outcome_eq_verdict] at h
  cases hrun : t .never {} with
  | ok b q =>
    rw [hrun] at h
    cases h
    exact ⟨_, q, hrun⟩
  | error e q =>
    rw [hrun] at h
    cases h

/-- A job in two parts has its result from both. The result of the
first is what the second was given. -/
theorem ComesTo.of_bind {b : β} (h : ComesTo (t >>= f) b) :
    ∃ a, ComesTo t a ∧ ComesTo (f a) b := by
  obtain ⟨p, q, hrun⟩ := h
  have hbind : (t >>= f) .never p =
      (EStateM.bind (t .never) fun a => f a .never) p := rfl
  rw [hbind, EStateM.bind] at hrun
  cases ht : t .never p with
  | ok a p' =>
    rw [ht] at hrun
    exact ⟨a, ⟨p, p', ht⟩, p', q, hrun⟩
  | error e p' =>
    rw [ht] at hrun
    cases hrun

/-- Handing a result on does not change it. -/
theorem ComesTo.eq_of_pure {a b : α} (h : ComesTo (pure a) b) : b = a := by
  obtain ⟨p, q, hrun⟩ := h
  cases hrun
  rfl

/-- A digest comes of a receipt that was written. -/
theorem ComesTo.write_of_receipt {name : String}
    {w : Receipt.Writer Unit} {d : Digest}
    (h : ComesTo (Job.receipt name w) d) :
    ∃ r, Receipt.write name w = .ok r ∧ d = r.digest := by
  obtain ⟨p, q, hrun⟩ := h
  unfold Job.receipt at hrun
  cases hwrite : Receipt.write name w with
  | ok r =>
    rw [hwrite] at hrun
    cases hrun
    exact ⟨r, rfl, rfl⟩
  | error e =>
    rw [hwrite] at hrun
    cases hrun

end Job

open Job

-- ============================================================== the passes

namespace Graph

/-- Ordering the nodes of any graph is scripted, even of one whose
indices lead nowhere. -/
theorem exists_scripted_order (g : Graph) : ∃ r, Scripted g.order r := by
  obtain ⟨r, hends⟩ := (Search.walk g).exists_ends (Search.initial g)
  unfold order
  exact exists_scripted_bind ⟨r, hends.scripted_run⟩ fun _ =>
    ⟨_, scripted_pure _⟩

/-- So are the marks, which are made after the order, -/
theorem exists_scripted_parity (g : Graph) : ∃ r, Scripted g.parity r := by
  unfold parity
  exact exists_scripted_bind g.exists_scripted_order fun _ =>
    ⟨_, scripted_visit ..⟩

/-- and the reduction, which is made after the marks. -/
theorem exists_scripted_reduce (g : Graph) (s : Solution) :
    ∃ r, Scripted (g.reduce s) r := by
  unfold reduce
  refine exists_scripted_bind g.exists_scripted_parity fun parity => ?_
  refine exists_scripted_bind ⟨_, scripted_visit ..⟩ fun r => ?_
  unfold Reduction.close
  refine exists_scripted_bind ⟨_, scripted_ofExcept _⟩ fun _ => ?_
  exact ⟨_, (scripted_note _).bind (scripted_pure _)⟩

end Graph

namespace Solution

/-- Finding asks before anything is computed, and does not ask if the
input is refused. -/
theorem exists_pollsTimes_find (target : Bytes) (pool : List Bytes) :
    ∃ n, PollsTimes (find target pool) n ∧
    (n = 0 ↔ ∃ e, checkInputs target pool = .error e) := by
  obtain ⟨r, hscript, -⟩ := exists_scripted_find target pool
  obtain ⟨n, hn⟩ := exists_pollsTimes ⟨r, hscript⟩
  refine ⟨n, hn, ?_⟩
  unfold find at hn
  cases h : checkInputs target pool with
  | error e =>
    rw [h] at hn
    exact iff_of_true (hn.unique (pollsTimes_play [] (.error e))) ⟨e, rfl⟩
  | ok _ =>
    rw [h] at hn
    have hpos : 0 < n := hn.pos_of_poll
    exact iff_of_false (Nat.ne_of_gt hpos) fun ⟨_, h⟩ => nomatch h

end Solution

namespace Answer

variable {level : Level} {target : Bytes} {pool : List Bytes} {a : Answer}

/-- Finding an answer is scripted at every level, being made of passes
and receipts. -/
theorem exists_scripted_find (level : Level) (target : Bytes)
    (pool : List Bytes) :
    ∃ r, Scripted (find level target pool) r := by
  unfold find
  obtain ⟨r, hfind, -⟩ := Solution.exists_scripted_find target pool
  refine exists_scripted_bind ⟨r, hfind⟩ fun s => ?_
  refine exists_scripted_bind (exists_scripted_receipt ..) fun solved => ?_
  cases level with
  | computed => exact ⟨_, scripted_pure _⟩
  | base =>
    obtain ⟨r, hgraph, -⟩ := s.scripted_graph
    refine exists_scripted_bind ⟨r, hgraph⟩ fun g => ?_
    refine exists_scripted_bind (exists_scripted_receipt ..) fun drawn => ?_
    refine exists_scripted_bind (g.exists_scripted_reduce s) fun r => ?_
    exact exists_scripted_bind (exists_scripted_receipt ..) fun _ =>
      ⟨_, scripted_pure _⟩

/-- An answer has sections of different names, and its values have a
frame. They are the names that the three passes write under. -/
theorem sections_of_find (h : (find level target pool).outcome = .ok a) :
    (∃ frame, Frame.encode a.values = .ok frame) ∧
      (a.digests.map Digest.name = ["solve"] ∨
        a.digests.map Digest.name = ["solve", "provenance", "reduce"]) := by
  have hfind := comesTo_of_outcome h
  unfold find at hfind
  obtain ⟨s, -, hfind⟩ := hfind.of_bind
  obtain ⟨solved, hsolved, hfind⟩ := hfind.of_bind
  obtain ⟨rs, hrs, rfl⟩ := hsolved.write_of_receipt
  have hsolve : rs.name = "solve" :=
    keepsName_solveReceipt s _ _ (Receipt.run_of_write hrs)
  cases level with
  | computed =>
    rw [hfind.eq_of_pure]
    refine ⟨exists_encode_computed hrs, .inl ?_⟩
    show [rs.name] = _
    rw [hsolve]
  | base =>
    obtain ⟨g, -, hfind⟩ := hfind.of_bind
    obtain ⟨drawn, hdrawn, hfind⟩ := hfind.of_bind
    obtain ⟨rd, hrd, rfl⟩ := hdrawn.write_of_receipt
    obtain ⟨r, -, hfind⟩ := hfind.of_bind
    obtain ⟨reduced, hreduced, hfind⟩ := hfind.of_bind
    obtain ⟨rr, hrr, rfl⟩ := hreduced.write_of_receipt
    have hdraw : rd.name = "provenance" :=
      Receipt.keepsName_put "stats" _ _ _ (Receipt.run_of_write hrd)
    have hreduce : rr.name = "reduce" :=
      keepsName_reductionReceipt r _ _ (Receipt.run_of_write hrr)
    rw [hfind.eq_of_pure]
    refine ⟨exists_encode_values hrr, .inr ?_⟩
    show [rs.name, rd.name, rr.name] = _
    rw [hsolve, hdraw, hreduce]

/-- What was answered can be agreed on. The receipt in which agreement
is noted has the names of the sections for its keys, and the values
once. -/
theorem exists_agreement_of_find
    (h : (find level target pool).outcome = .ok a) :
    ∃ r, Receipt.write "determinism" (agreementReceipt a) = .ok r := by
  obtain ⟨⟨frame, hframe⟩, hnames⟩ := sections_of_find h
  rcases hnames with hnames | hnames <;>
    exact exists_agreement (by rw [hnames]; decide)
      (by rw [hnames]; decide) hframe

/-- A checked answer plays the script of an answer three times. The
runs agree because they are one script, and the values that are
compared are the same. -/
theorem findChecked_eq_play {events : List Event}
    (h : find level target pool = play events (.ok a)) :
    findChecked level target pool = play (events ++ (events ++ events))
      (.ok { a with checked := some a.digests.length }) := by
  have houtcome : (find level target pool).outcome = .ok a :=
    Scripted.outcome_eq ⟨events, h⟩
  obtain ⟨r, hr⟩ := exists_agreement_of_find houtcome
  have hreceipt : Job.receipt "determinism" (agreementReceipt a) =
      pure r.digest := by
    unfold Job.receipt
    rw [hr]
  have hagree : Drift.between r.digest r.digest = none := if_pos rfl
  unfold findChecked
  rw [h]
  refine play_bind events (events ++ events) ?_
  refine play_bind events events ?_
  rw [hreceipt, pure_bind]
  refine (play_bind events [] ?_).trans (by rw [List.append_nil])
  rw [hreceipt, pure_bind, hagree]
  rfl

/-- A checked answer polls three times as often as the answer, since
it is found three times over, and it is the answer with the number of
its sections. -/
theorem pollsTimes_findChecked {n : Nat}
    (hn : PollsTimes (find level target pool) n)
    (h : (find level target pool).outcome = .ok a) :
    PollsTimes (findChecked level target pool) (3 * n) ∧
      (findChecked level target pool).outcome =
        .ok { a with checked := some a.digests.length } := by
  obtain ⟨r, events, hevents⟩ := exists_scripted_find level target pool
  have hr : r = .ok a := by
    rw [← h]
    exact (Scripted.outcome_eq ⟨events, hevents⟩).symm
  rw [hr] at hevents
  have hplay := findChecked_eq_play hevents
  have hpolls : polls (events ++ (events ++ events)) = 3 * n := by
    rw [hevents] at hn
    rw [polls_append, polls_append, hn.unique (pollsTimes_play events _)]
    omega
  constructor
  · rw [hplay, ← hpolls]
    exact pollsTimes_play _ _
  · exact Scripted.outcome_eq ⟨_, hplay⟩

end Answer

-- ================================================================ in full

/-- Cancellation does nothing but end a run early: each pass, and the
whole of an answer, asks a number of times that is settled by its
input. Finding asks at all exactly if the input is accepted, and a
checked answer asks three times as often as the answer that it
confirms. -/
theorem cancellation_transparent :
    (∀ target pool, ∃ n, PollsTimes (Solution.find target pool) n ∧
      (n = 0 ↔ ∃ e, Solution.checkInputs target pool = .error e)) ∧
    (∀ level target pool, ∃ n, PollsTimes (Answer.find level target pool) n ∧
      ∀ a, (Answer.find level target pool).outcome = .ok a →
        PollsTimes (Answer.findChecked level target pool) (3 * n) ∧
        (Answer.findChecked level target pool).outcome =
          .ok { a with checked := some a.digests.length }) ∧
    (∀ s : Solution, ∃ n, PollsTimes s.graph n) ∧
    (∀ g : Graph, ∃ n, PollsTimes g.order n) ∧
    (∀ g : Graph, ∃ n, PollsTimes g.parity n) ∧
    ∀ (g : Graph) (s : Solution), ∃ n, PollsTimes (g.reduce s) n := by
  refine ⟨Solution.exists_pollsTimes_find, ?_, ?_, ?_, ?_, ?_⟩
  · intro level target pool
    obtain ⟨n, hn⟩ := exists_pollsTimes
      (Answer.exists_scripted_find level target pool)
    exact ⟨n, hn, fun a ha => Answer.pollsTimes_findChecked hn ha⟩
  · intro s
    obtain ⟨r, hgraph, -⟩ := s.scripted_graph
    exact exists_pollsTimes ⟨r, hgraph⟩
  · intro g
    exact exists_pollsTimes g.exists_scripted_order
  · intro g
    exact exists_pollsTimes g.exists_scripted_parity
  · intro g s
    exact exists_pollsTimes (g.exists_scripted_reduce s)

end XorSpan
