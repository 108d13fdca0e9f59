/-
With which status a command ends. An attempt to find a combination in a
pool that was read from a file is refused, falls short, or succeeds
(`Attempt`): what else could go wrong is a receipt, and a file within the
limit has no room for a pool that no frame holds. So the three commands
that work on files end with status 1 for bad input, 2 for a pool that is
not diverse enough, 3 for a mismatch and 0 otherwise, and print nothing
unless it is 0 (`run_status`).

There is one exception. A double dash that is joined to an option stands
for no value, the command line is accepted all the same, and reading the
value that is not there is not among the faults that a command expects
(`run_status_double_dash`).
-/
import XorSpan.Proofs.Cli.Input
import XorSpan.Proofs.Cli.Words
import XorSpan.Proofs.HashLists
import XorSpan.Proofs.Interruption

namespace XorSpan

open Job

variable {target : Bytes} {pool : List Bytes} {s : Solution}

-- =============================================================== attempts

/-- What an attempt on a target and a pool comes to, if there is room
for its receipts. -/
inductive Attempt (target : Bytes) (pool : List Bytes) {α : Type} :
    Except Fault α → Prop where
  | refused {e : Fault} (reason : Solution.Refused target pool e) :
      Attempt target pool (.error e)
  | short {bit : Nat} (accepted : Solution.Accepted target pool)
      (nonzero : target.isZero = false)
      (falls : ¬Bytes.Spans target.size pool) :
      Attempt target pool (.error (.unsolvable bit))
  | success (a : α) (accepted : Solution.Accepted target pool)
      (reached : target.isZero = true ∨ Bytes.Spans target.size pool) :
      Attempt target pool (.ok a)

/-- A job that fails where finding fails, and succeeds where finding
does, is an attempt. -/
theorem Attempt.of_finding {α : Type} {r : Except Fault Solution}
    {q : Except Fault α}
    (h : Solution.Finding target pool r)
    (hfails : ∀ e, r = .error e → q = .error e)
    (hsucceeds : ∀ s, r = .ok s → ∃ a, q = .ok a) : Attempt target pool q := by
  cases h with
  | refused reason =>
    rw [hfails _ rfl]
    exact .refused reason
  | unsolvable accepted nonzero falls =>
    rw [hfails _ rfl]
    exact .short accepted nonzero falls
  | zero accepted zero =>
    obtain ⟨a, ha⟩ := hsucceeds _ rfl
    rw [ha]
    exact .success a accepted (.inl zero)
  | found accepted _ spans =>
    obtain ⟨a, ha⟩ := hsucceeds _ rfl
    rw [ha]
    exact .success a accepted (.inr spans)

-- ================================================================ answers

/-- A pool within the limit leaves room for the receipt of its sweep.
The file is so small that no count or length can be too large for a
frame. -/
theorem exists_solveReceipt (hs : Solution.Sound target pool s)
    (hacc : Solution.Accepted target pool)
    (hlimit : HashList.spelled pool ≤ Parameters.hashListLimit) :
    ∃ r, Receipt.write "solve" (Answer.solveReceipt s) = .ok r := by
  obtain ⟨hwidth, hcount, hroom⟩ := hacc.frames hlimit
  have hpool := Frame.encode_eq hacc.sizes hwidth
  rw [if_neg (Nat.not_lt.2 hcount), ← hs.pool_eq] at hpool
  have hcomputed := Frame.encode_eq hs.sizes hwidth
  rw [if_neg (Nat.not_lt.2 (Nat.le_trans hs.length_le hroom))] at hcomputed
  exact (Answer.writes_solveReceipt hpool hcomputed).write "solve"

/-- The answer of either level, checked or not. The receipts are the
only thing that could go wrong besides finding. -/
theorem attempt_answer (hlimit : HashList.spelled pool ≤
    Parameters.hashListLimit) (checked : Bool)
    (level : Level) : Attempt target pool
      ((if checked then Answer.findChecked else Answer.find) level target
        pool).outcome := by
  obtain ⟨r, hfind, hfinding⟩ := Solution.exists_scripted_find target pool
  refine .of_finding hfinding ?_ ?_
  · rintro e rfl
    have hanswer : Scripted (Answer.find level target pool) (.error e) := by
      unfold Answer.find
      exact hfind.bind_error
    cases checked with
    | false => exact hanswer.outcome_eq
    | true =>
      have hchecked :
          Scripted (Answer.findChecked level target pool) (.error e) := by
        unfold Answer.findChecked
        exact hanswer.bind_error
      exact hchecked.outcome_eq
  · rintro s rfl
    have hacc := hfinding.accepted
    obtain ⟨hwidth, hcount, -⟩ := hacc.frames hlimit
    obtain ⟨solved, hsolved⟩ := exists_solveReceipt hfinding.sound hacc hlimit
    obtain ⟨a, ⟨events, hanswer⟩, -⟩ :=
      exists_scripted_answer hfinding.sound hacc.sizes hwidth
      hcount hfind hsolved level
    cases checked with
    | false => exact ⟨a, Scripted.outcome_eq ⟨events, hanswer⟩⟩
    | true =>
      exact ⟨_, Scripted.outcome_eq ⟨_, Answer.findChecked_eq_play hanswer⟩⟩

-- ================================================================= charts

/-- Drawing a graph cannot fail, not even one with cycles: nodes that
have been entered are not entered again. -/
theorem Graph.exists_scripted_chart (g : Graph) (footer : Bool) :
    ∃ summary, Scripted (g.chart footer) (.ok summary) := by
  obtain ⟨drawing, last, summary, hplay, -, -⟩ := g.exists_chartScript footer
  exact ⟨summary, chartScript drawing last, hplay⟩

/-- A chart of an input fails as finding does. -/
theorem chart_of_find_error {e : Fault}
    (hfind : Scripted (Solution.find target pool) (.error e))
    (footer : Bool) : (drawChart target pool footer).outcome = .error e := by
  unfold drawChart
  exact hfind.bind_error.outcome_eq

/-- And it is drawn where finding succeeds: what is found can be
expanded and drawn. -/
theorem exists_chart_of_find
    (hfind : Scripted (Solution.find target pool) (.ok s))
    (hs : Solution.Sound target pool s) (footer : Bool) :
    ∃ summary, (drawChart target pool footer).outcome = .ok summary := by
  obtain ⟨g, hgraph, -⟩ := hs.exists_graph
  obtain ⟨summary, hchart⟩ := g.exists_scripted_chart footer
  exact ⟨summary, (hfind.bind (hgraph.bind hchart)).outcome_eq⟩

/-- A chart takes no receipts, so any pool will do. It need not come
out of a file. -/
theorem attempt_chart (target : Bytes) (pool : List Bytes) (footer : Bool) :
    Attempt target pool (drawChart target pool footer).outcome := by
  obtain ⟨r, hfind, hfinding⟩ := Solution.exists_scripted_find target pool
  refine .of_finding hfinding ?_ ?_
  · rintro e rfl
    exact chart_of_find_error hfind footer
  · rintro s rfl
    exact exists_chart_of_find hfind hfinding.sound footer

/-- Of a chart that is not drawn, nothing is printed: what fails is
finding, and finding writes nothing. -/
theorem text_of_chart_error {e : Fault} {footer : Bool}
    (h : (drawChart target pool footer).outcome = .error e) :
    ((drawChart target pool footer).start .never).2.text = "" := by
  obtain ⟨r, hfind, hfinding⟩ := Solution.exists_scripted_find target pool
  cases r with
  | error e =>
    exact (Solution.quiet_find target pool).text_bind_of_error hfind.outcome_eq
  | ok s =>
    obtain ⟨summary, hchart⟩ := exists_chart_of_find hfind hfinding.sound footer
    rw [hchart] at h
    cases h

namespace Cli

variable {world : World} {words : List String} {command : Command}
    {source : TargetSource}
  {file : Argument String} {values : List Bytes} {label stdout stderr : String}

-- =============================================================== commands

/-- The command looks for a combination. -/
def Command.solves : Command → Bool
  | .solve .. | .chart .. | .demo .. => true
  | .validate .. => false

/-- The command reads a target and a pool, and writes to no file. -/
inductive Command.WorksOn :
    Command → TargetSource → Argument String → Prop where
  | solve (source : TargetSource) (file : Argument String)
      (reduced checked : Bool) :
      WorksOn (.solve source file reduced checked none) source file
  | chart (source : TargetSource) (file : Argument String) (footer : Bool) :
      WorksOn (.chart source file footer) source file
  | validate (source : TargetSource) (file : Argument String) :
      WorksOn (.validate source file) source file

/-- The values are as long as the target and add up to it. -/
def AddsUp (target : Bytes) (values : List Bytes) : Prop :=
  (∀ v ∈ values, v.size = target.size) ∧
  Bytes.xorAll target.size values = target

/-- What a command comes to on inputs that were read. -/
inductive Acted (command : Command) (target : Bytes) (values : List Bytes) :
    Outcome → Prop where
  | rejected {stderr : String} {e : Fault} (solves : command.solves = true)
      (reason : Solution.Refused target values e) :
      Acted command target values ⟨"", stderr, .status 1, none⟩
  | short {stderr : String} (solves : command.solves = true)
      (accepted : Solution.Accepted target values)
        (nonzero : target.isZero = false)
      (falls : ¬Bytes.Spans target.size values) :
      Acted command target values ⟨"", stderr, .status 2, none⟩
  | mismatch {stderr : String} (checks : command.solves = false)
      (wrong : ¬AddsUp target values) :
      Acted command target values ⟨"", stderr, .status 3, none⟩
  | solved {stdout stderr : String} (solves : command.solves = true)
      (accepted : Solution.Accepted target values)
      (reached : target.isZero = true ∨ Bytes.Spans target.size values) :
      Acted command target values ⟨stdout, stderr, .status 0, none⟩
  | valid {stdout stderr : String} (checks : command.solves = false)
      (right : AddsUp target values) :
      Acted command target values ⟨stdout, stderr, .status 0, none⟩

/-- An input that is refused is the user's mistake, which is status 1,
and what was printed before stays printed. -/
theorem failed_of_refused {e : Fault} (h : Solution.Refused target values e) :
    ∃ more, failed label stdout stderr e =
      ⟨stdout, stderr ++ more, .status 1, none⟩ := by
  cases h with
  | empty => exact ⟨_, rfl⟩
  | mismatch => exact ⟨_, rfl⟩
  | few => exact ⟨_, rfl⟩

/-- An attempt that does not succeed ends the command with its status.
What finding can fail with is a refusal or a bit, and both have a
status. -/
theorem acted_of_attempt {α : Type} {e : Fault}
    (hsolves : command.solves = true)
    (h : Attempt target values (.error e : Except Fault α)) :
    Acted command target values (failed label "" stderr e) := by
  cases h with
  | refused reason =>
    obtain ⟨more, hfailed⟩ := failed_of_refused reason
    rw [hfailed]
    exact .rejected hsolves reason
  | short accepted nonzero falls => exact .short hsolves accepted nonzero falls

/-- Solving on values that were read ends with the status of what was
wrong with them. The limit on the file keeps the receipts from being
refused. -/
theorem acted_solve (hlimit : HashList.spelled values ≤
    Parameters.hashListLimit)
    (reduced checked : Bool) :
    Acted (.solve source file reduced checked none) target values
      (printAnswer world "" (fun _ => "") none
        ((if checked then Answer.findChecked else Answer.find)
          (levelOf reduced) target values)) := by
  have hattempt : Attempt target values
      ((if checked then Answer.findChecked else Answer.find)
        (levelOf reduced) target values).outcome :=
    attempt_answer hlimit checked (levelOf reduced)
  unfold printAnswer
  unfold outcome at hattempt
  generalize ((if checked then Answer.findChecked else Answer.find)
    (levelOf reduced) target
    values).start .never = ended at hattempt
  obtain ⟨r, p⟩ := ended
  cases r with
  | error e => exact acted_of_attempt rfl hattempt
  | ok a =>
    cases hattempt with
    | success _ accepted reached => exact .solved rfl accepted reached

/-- So does drawing. It makes no receipts, and prints nothing if it
fails. -/
theorem acted_chart (footer : Bool) :
    Acted (.chart source file footer) target values
      (match (drawChart target values footer).start .never with
        | (.ok _, p) => ⟨p.text, world.notices p, .status 0, none⟩
        | (.error fault, p) =>
            failed "Error" p.text (world.notices p) fault) := by
  have hattempt := attempt_chart target values footer
  have htext : ∀ e, (drawChart target values footer).outcome = .error e →
      ((drawChart target values footer).start .never).2.text = "" :=
    fun _ h => text_of_chart_error h
  unfold outcome at hattempt htext
  generalize (drawChart target values footer).start .never =
    ended at hattempt htext
  obtain ⟨r, p⟩ := ended
  cases r with
  | error e =>
    dsimp only
    rw [htext e rfl]
    exact acted_of_attempt rfl hattempt
  | ok summary =>
    cases hattempt with
    | success _ accepted reached => exact .solved rfl accepted reached

/-- And so does comparing a target with the sum of the values, where
the one thing that can be wrong is the sum. -/
theorem acted_validate :
    Acted (.validate source file) target values
      (match checkSum .validate target values with
        | .ok () => ⟨"OK\n", "", .status 0, none⟩
        | .error fault => failed "MISMATCH" "" "" fault) := by
  cases hcheck : checkSum .validate target values with
  | ok => exact .valid rfl (checkSum_eq_ok_iff.1 hcheck)
  | error e =>
    obtain ⟨what, rfl⟩ := exists_defect_of_checkSum hcheck
    refine .mismatch rfl fun hright => ?_
    rw [checkSum_eq_ok_iff.2 hright] at hcheck
    cases hcheck

/-- The command reads its inputs and acts on them, or it does not come
to that. -/
inductive Ran (world : World) (command : Command) (source : TargetSource)
    (file : Argument String) :
    Outcome → Prop where
  | lacking {e : KindError} (lacks : Lacks world.disk source file) :
      Ran world command source file ⟨"", "", .wrongKind e, none⟩
  | unread {stderr : String} (present : ¬Lacks world.disk source file)
      (nothing : ∀ target values, ¬Reads world.disk source file target values) :
      Ran world command source file ⟨"", stderr, .status 1, none⟩
  | acted {target : Bytes} {values : List Bytes} {o : Outcome}
      (reads : Reads world.disk source file target values)
        (acted : Acted command target values o) :
      Ran world command source file o

/-- From inputs that are read, every command goes on as it should. If
they cannot be read, the command has not begun. -/
theorem ran_of_acted {act : Bytes → List Bytes → Outcome}
    (hsteady : world.disk.Steady)
    (hact : ∀ target values,
      HashList.spelled values ≤ Parameters.hashListLimit →
      Acted command target values (act target values)) :
    Ran world command source file (match readInputs world.disk source file with
      | .error e => refuse e
      | .ok (target, values) => act target values) := by
  have hreading := inputReading world.disk source file
  generalize readInputs world.disk source file = r at hreading
  cases hreading with
  | lacking lacks => exact .lacking lacks
  | refused complaint unread present =>
    dsimp only
    rw [complaint]
    exact .unread present unread
  | read reads =>
    refine .acted reads (hact _ _ ?_)
    cases reads with
    | inputs _ read => exact HashList.spelled_of_read hsteady read

/-- A command on files ends with the status of what is wrong with
them, from the reading of its inputs to its last line. -/
theorem ran (hworks : command.WorksOn source file)
    (hsteady : world.disk.Steady) :
    Ran world command source file (command.run world) := by
  cases hworks with
  | solve _ _ reduced checked =>
    exact ran_of_acted hsteady fun _ _ hlimit =>
      acted_solve hlimit reduced checked
  | chart _ _ footer =>
    exact ran_of_acted hsteady fun _ _ _ => acted_chart footer
  | validate => exact ran_of_acted hsteady fun _ _ _ => acted_validate

/-- A command line that is taken runs the command it is taken for. -/
theorem run_of_parse (hparse : parse words = .ok command) :
    run world words = command.run world := by
  unfold run
  rw [hparse]

/-- Inputs that can be read are acted on. It is the statement for
command lines that is used by the round trip. -/
theorem acted_of_reads (hparse : parse words = .ok command)
    (hworks : command.WorksOn source file)
    (hsteady : world.disk.Steady)
    (hreads : Reads world.disk source file target values) :
    Acted command target values (run world words) := by
  have hran := ran hworks hsteady
  rw [← run_of_parse hparse] at hran
  generalize run world words = o at hran ⊢
  cases hran with
  | lacking lacks => exact absurd lacks hreads.not_lacks
  | unread _ nothing => exact absurd hreads (nothing _ _)
  | acted reads acted =>
    obtain ⟨rfl, rfl⟩ := hreads.unique reads
    exact acted

/-- A combination that is wanted and can be had is found. So the
status is zero then, whatever the command does with it. -/
theorem Acted.ending_of_reached {o : Outcome}
    (h : Acted command target values o)
    (hsolves : command.solves = true) (hacc : Solution.Accepted target values)
    (hreached : target.isZero = true ∨ Bytes.Spans target.size values) :
    o.ending = .status 0 := by
  cases h with
  | rejected _ reason => exact absurd hacc reason.not_accepted
  | short _ _ nonzero falls =>
    rcases hreached with hzero | hspans
    · rw [nonzero] at hzero
      cases hzero
    · exact absurd hspans falls
  | mismatch checks =>
    rw [hsolves] at checks
    cases checks
  | solved => rfl
  | valid => rfl

-- =============================================================== statuses

/-- The target or the pool cannot be read, or a combination is wanted
and the inputs are refused. -/
inductive BadInput (disk : Disk) (command : Command) (source : TargetSource)
    (file : Argument String) : Prop where
  | unread (nothing : ∀ target values, ¬Reads disk source file target values)
  | rejected {target : Bytes} {values : List Bytes} {e : Fault}
      (solves : command.solves = true)
      (reads : Reads disk source file target values)
      (rejects : Solution.checkInputs target values = .error e)

/-- A combination is wanted, the inputs are accepted, and the pool
does not reach every value. -/
inductive FallsShort (disk : Disk) (command : Command) (source : TargetSource)
    (file : Argument String) : Prop where
  | short {target : Bytes} {values : List Bytes}
      (solves : command.solves = true)
      (reads : Reads disk source file target values)
      (accepts : Solution.checkInputs target values = .ok ())
        (nonzero : target.isZero = false)
      (falls : ¬Bytes.Spans target.size values)

/-- The values are to be checked, and do not add up to the target. -/
inductive Mismatch (disk : Disk) (command : Command) (source : TargetSource)
    (file : Argument String) : Prop where
  | wrong {target : Bytes} {values : List Bytes}
      (checks : command.solves = false)
      (reads : Reads disk source file target values)
        (wrong : ¬AddsUp target values)

variable {disk : Disk}

/-- Of inputs that were read, the wrong ones are those that finding
refuses. Only commands that find anything can complain of them. -/
theorem badInput_iff (h : Reads disk source file target values) :
    BadInput disk command source file ↔
      command.solves = true ∧ ¬Solution.Accepted target values := by
  constructor
  · intro hbad
    cases hbad with
    | unread nothing => exact absurd h (nothing _ _)
    | rejected solves reads rejects =>
      obtain ⟨rfl, rfl⟩ := h.unique reads
      exact ⟨solves, (Solution.refused_of_checkInputs rejects).not_accepted⟩
  · rintro ⟨solves, hrejected⟩
    cases hcheck : Solution.checkInputs target values with
    | ok => exact absurd (Solution.checkInputs_eq_ok_iff.1 hcheck) hrejected
    | error e => exact .rejected solves h hcheck

/-- A pool falls short if it is accepted and does not span, unless
nothing is asked of it. -/
theorem fallsShort_iff (h : Reads disk source file target values) :
    FallsShort disk command source file ↔ command.solves = true ∧
      Solution.Accepted target values ∧ target.isZero = false ∧
        ¬Bytes.Spans target.size values := by
  constructor
  · intro hshort
    cases hshort with
    | short solves reads accepts nonzero falls =>
      obtain ⟨rfl, rfl⟩ := h.unique reads
      exact ⟨solves, Solution.checkInputs_eq_ok_iff.1 accepts, nonzero, falls⟩
  · rintro ⟨solves, accepted, nonzero, falls⟩
    exact .short solves h (Solution.checkInputs_eq_ok_iff.2 accepted)
      nonzero falls

/-- There is a mismatch where the values do not add up to the target,
and only a command that compares them tells. -/
theorem mismatch_iff (h : Reads disk source file target values) :
    Mismatch disk command source file ↔
    command.solves = false ∧ ¬AddsUp target values := by
  constructor
  · intro hmismatch
    cases hmismatch with
    | wrong checks reads wrong =>
      obtain ⟨rfl, rfl⟩ := h.unique reads
      exact ⟨checks, wrong⟩
  · rintro ⟨checks, wrong⟩
    exact .wrong checks h wrong

/-- What a status says: 1 for bad input, 2 for a pool that is not
diverse enough, 3 for a mismatch, 0 for none of these. -/
structure Tells (disk : Disk) (command : Command) (source : TargetSource)
    (file : Argument String)
    (code : Nat) : Prop where
  le : code ≤ 3
  badInput : code = 1 ↔ BadInput disk command source file
  fallsShort : code = 2 ↔ FallsShort disk command source file
  mismatch : code = 3 ↔ Mismatch disk command source file

/-- Whatever is done on inputs that were read, the status tells what
was wrong with them, and a command that ends with another status than
zero has printed nothing. -/
theorem Acted.exists_tells {o : Outcome} (h : Acted command target values o)
    (hreads : Reads disk source file target values) :
    (o.ending ≠ .status 0 → o.stdout = "") ∧
      ∃ code, o.ending = .status code ∧
      Tells disk command source file code := by
  have htells : ∀ {code : Nat}, code ≤ 3 →
      (code = 1 ↔ command.solves = true ∧ ¬Solution.Accepted target values) →
      (code = 2 ↔ command.solves = true ∧ Solution.Accepted target values ∧
        target.isZero = false ∧ ¬Bytes.Spans target.size values) →
      (code = 3 ↔ command.solves = false ∧ ¬AddsUp target values) →
      Tells disk command source file code := by
    intro code hle hbad hshort hwrong
    rw [← badInput_iff hreads] at hbad
    rw [← fallsShort_iff hreads] at hshort
    rw [← mismatch_iff hreads] at hwrong
    exact ⟨hle, hbad, hshort, hwrong⟩
  cases h with
  | rejected solves reason =>
    refine ⟨fun _ => rfl, 1, rfl, htells (by decide) ?_ ?_ ?_⟩ <;>
      simp [solves, reason.not_accepted]
  | short solves accepted nonzero falls =>
    refine ⟨fun _ => rfl, 2, rfl, htells (by decide) ?_ ?_ ?_⟩ <;>
      simp [solves, accepted, nonzero, falls]
  | mismatch checks wrong =>
    refine ⟨fun _ => rfl, 3, rfl,
      htells (by decide) ?_ ?_ ?_⟩ <;> simp [checks, wrong]
  | solved solves accepted reached =>
    have hreached : target.isZero = false → Bytes.Spans target.size values := by
      intro hzero
      rcases reached with h | h
      · rw [h] at hzero
        cases hzero
      · exact h
    refine ⟨fun h => absurd rfl h, 0, rfl, htells (by decide) ?_ ?_ ?_⟩ <;>
      simp [solves, accepted]
    exact hreached
  | valid checks right =>
    refine ⟨fun h => absurd rfl h, 0, rfl,
      htells (by decide) ?_ ?_ ?_⟩ <;> simp [checks, right]

/-- A command line that asks for work on files ends with the status
that tells what was wrong with them, unless it leaves out a value that
is wanted. Nothing is printed unless the status is 0. -/
theorem run_status (hparse : parse words = .ok command)
    (hworks : command.WorksOn source file) (hsteady : world.disk.Steady) :
    ((run world words).ending ≠ .status 0 → (run world words).stdout = "") ∧
    (Lacks world.disk source file →
      ∃ e, (run world words).ending = .wrongKind e) ∧
    (¬Lacks world.disk source file →
      ∃ code, (run world words).ending = .status code ∧
      Tells world.disk command source file code) := by
  have hran := ran hworks hsteady
  rw [← run_of_parse hparse] at hran
  generalize run world words = o at hran
  cases hran with
  | lacking lacks =>
    exact ⟨fun _ => rfl, fun _ => ⟨_, rfl⟩, fun present => absurd lacks present⟩
  | unread present nothing =>
    refine ⟨fun _ => rfl, fun lacks => absurd lacks present,
      fun _ => ⟨1, rfl, by decide, ?_, ?_, ?_⟩⟩
    · exact iff_of_true rfl (.unread nothing)
    · refine iff_of_false (by decide) fun hshort => ?_
      cases hshort with
      | short _ reads => exact nothing _ _ reads
    · refine iff_of_false (by decide) fun hmismatch => ?_
      cases hmismatch with
      | wrong _ reads => exact nothing _ _ reads
  | acted reads acted =>
    obtain ⟨hstdout, hcode⟩ := acted.exists_tells reads
    exact ⟨hstdout, fun lacks => absurd lacks reads.not_lacks, fun _ => hcode⟩

/-- Every path leads to a file with this text. -/
def World.holding (text : String) : World :=
  ⟨.uniform text.toUTF8.toList, 0, false⟩

/-- A file with the one value that is asked for. The values are
compared with it, and the status tells how that went. -/
theorem run_status_valid : ∃ code,
    (run (.holding "41\n")
      ["validate", "--target", "41", "--pool", "pool.txt"]).ending =
        .status code ∧
    Tells (World.holding "41\n").disk
      (.validate (.text (.value "41")) (.value "pool.txt"))
        (.text (.value "41"))
      (.value "pool.txt") code := by
  have hparse : parse ["validate", "--target", "41", "--pool", "pool.txt"] =
      .ok (.validate (.text (.value "41")) (.value "pool.txt")) :=
    parse_validateWords (by decide +kernel)
      (classify_of_plain (by decide +kernel))
  have hpresent : ¬Lacks (World.holding "41\n").disk (.text (.value "41"))
      (.value "pool.txt") := by
    intro hlacks
    cases hlacks
  exact (run_status hparse (.validate _ _) (Disk.steady_uniform _)).2.2 hpresent

/-- A target left out by a double dash: the command line is accepted,
but no status tells what is wrong with it. -/
theorem run_status_double_dash :
    parse ["solve", "--target=--", "--pool", "pool.txt"] =
        .ok (.solve (.text .missing) (.value "pool.txt") true false none) ∧
      ∀ code, (run (.holding "80\n40\n20\n10\n08\n04\n02\n01\n")
        ["solve", "--target=--", "--pool", "pool.txt"]).ending ≠
          .status code := by
  have hparse : parse ["solve", "--target=--", "--pool", "pool.txt"] =
      .ok (.solve (.text .missing) (.value "pool.txt") true false none) := by
    have hsome :
        (parse ["solve", "--target=--", "--pool", "pool.txt"]).toOption =
        some (.solve (.text .missing) (.value "pool.txt") true false none) := by
      decide +kernel
    generalize
      parse ["solve", "--target=--", "--pool", "pool.txt"] = r at hsome ⊢
    cases r with
    | error stop => cases hsome
    | ok command =>
      cases hsome
      rfl
  refine ⟨hparse, fun code h => ?_⟩
  unfold run at h
  rw [hparse] at h
  cases h

end Cli

end XorSpan
