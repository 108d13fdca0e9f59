/-
Command lines that name a target text and a pool file. An option that
takes a value takes the word behind it, provided that it does not look
like an option (`gather_text`), and is misused otherwise
(`exists_of_gather_text`). So a command line that asks for an answer means
what it says, if it is accepted at all (`eq_of_parse_solveWords`), and it
is accepted where its words do not look like options (`parse_solveWords`).
-/
import XorSpan.Cli.Arguments

namespace XorSpan.Cli

variable {switches : List Switch} {s : Switch} {g g' : Given}
    {name word value target pool : String}
  {words : List String}

-- ================================================================= words

/-- A word without a dash in front is a value. It does not matter
which options there are. -/
theorem classify_of_plain (h : word.startsWith "-" = false) :
    classify switches word = .ok (.value word) := by
  unfold classify
  rw [h]
  rfl

theorem ne_of_plain (h : word.startsWith "-" = false) : word ≠ "--" := by
  rintro rfl
  exact absurd h (by decide +kernel)

/-- An option that is written out is that option. It is looked for
before shortened forms are. -/
theorem classify_of_exact (hdash : word.startsWith "-" = true)
    (hfind : switches.find? (·.name == word) = some s) :
    classify switches word = .ok (.switch s none) := by
  unfold classify
  dsimp only
  rw [hdash, if_neg (by decide), hfind]

/-- What shortened or clustered options stand for are options. So no
word that was shortened comes out as a value. -/
theorem exists_switch_of_mem {w : Word}
    (h : w ∈ (if word.startsWith "--" then shortened else clustered)
      switches word) :
    ∃ s joined, w = .switch s joined := by
  split at h
  · unfold shortened at h
    dsimp only at h
    split at h <;>
    · obtain ⟨s, -, rfl⟩ := List.mem_map.1 h
      exact ⟨_, _, rfl⟩
  · obtain ⟨s, -, rfl⟩ := List.mem_map.1 h
    exact ⟨_, _, rfl⟩

/-- A word that is taken for a value is its own value. Nothing is
trimmed or taken off it. -/
theorem eq_of_classify_value (h : classify switches word = .ok (.value value)) :
    value = word := by
  unfold classify at h
  dsimp only at h
  split at h
  · cases h
    rfl
  · split at h
    · cases h
    · split at h
      · cases h
        rfl
      · split at h
        · cases h
        · split at h
          · next w hw =>
            cases h
            obtain ⟨s, joined, hs⟩ :=
              exists_switch_of_mem (hw ▸ List.mem_singleton_self
                (Word.value value))
            cases hs
          · cases h
          · split at h
            · cases h
              rfl
            · cases h

-- ================================================================ values

/-- Takes words, one after the other, as they were written; a command
takes the words behind its name so. -/
def gather (switches : List Switch) (g : Given) (words : List String) :
    Except Stop Given :=
  classifyAll switches words >>= collect g

theorem classifyAll_cons {w : Word} (hne : word ≠ "--")
    (h : classify switches word = .ok w) :
    classifyAll switches (word :: words) =
      (classifyAll switches words).map (w :: ·) := by
  rw [classifyAll, if_neg hne, h]
  cases classifyAll switches words <;> rfl

/-- An option that takes a text takes the value behind it. Words
further on are not looked at for that. -/
theorem collect_text (hs : s.arity = .text) (value : String) (ws : List Word) :
    collect g (.switch s none :: .value value :: ws) =
      g.set s (.text value) >>= fun g => collect g ws := by
  obtain ⟨name, arity, rivals⟩ := s
  cases hs
  rfl

/-- Without a value behind it, it is misused. -/
theorem collect_text_of_none {ws : List Word} (hs : s.arity = .text)
    (h : ∀ value rest, ws ≠ .value value :: rest) :
    collect g (.switch s none :: ws) = .error .misuse := by
  obtain ⟨name, arity, rivals⟩ := s
  cases hs
  cases ws with
  | nil => rfl
  | cons w ws =>
    cases w with
    | value value => exact absurd rfl (h value ws)
    | _ => rfl

variable (hname : classify switches name = .ok (.switch s none))
    (hne : name ≠ "--")
  (hs : s.arity = .text)

include hname hne hs

/-- An option that has not been given yet takes the word behind it. -/
theorem gather_text {g₁ : Given}
    (hvalue : classify switches value = .ok (.value value))
    (hdash : value ≠ "--") (hset : g.set s (.text value) = .ok g₁) :
    gather switches g (name :: value :: words) = gather switches g₁ words := by
  unfold gather
  rw [classifyAll_cons hne hname, classifyAll_cons hdash hvalue]
  cases classifyAll switches words with
  | error e => rfl
  | ok ws =>
    show collect g (.switch s none :: .value value :: ws) = collect g₁ ws
    rw [collect_text hs, hset]
    rfl

/-- If the words are taken, what stands behind the option is a value.
It is what is needed of a command line of which it is only known that
it was accepted. -/
theorem exists_of_gather_text (h : gather switches g (name :: words) = .ok g') :
    ∃ value rest g₁, words = value :: rest ∧
      classify switches value = .ok (.value value) ∧
      g.set s (.text value) = .ok g₁ ∧ gather switches g₁ rest = .ok g' := by
  have hnone : ∀ ws, classifyAll switches words = .ok ws →
      (∀ value rest, ws ≠ .value value :: rest) → False := by
    intro ws hws hno
    unfold gather at h
    rw [classifyAll_cons hne hname, hws] at h
    have hcollect : collect g (.switch s none :: ws) = .ok g' := h
    rw [collect_text_of_none hs hno] at hcollect
    cases hcollect
  cases words with
  | nil => exact (hnone [] rfl fun _ _ h => nomatch h).elim
  | cons value rest =>
    by_cases hdash : value = "--"
    · refine (hnone _ (by rw [classifyAll, if_pos hdash]) ?_).elim
      intro _ _ heq
      cases heq
    · cases hw : classify switches value with
      | error stop =>
        unfold gather at h
        rw [classifyAll_cons hne hname, classifyAll, if_neg hdash, hw] at h
        cases h
      | ok w =>
        cases hrest : classifyAll switches rest with
        | error stop =>
          unfold gather at h
          rw [classifyAll_cons hne hname, classifyAll_cons hdash hw, hrest] at h
          cases h
        | ok ws =>
          cases w with
          | value text =>
            cases eq_of_classify_value hw
            unfold gather at h
            rw [classifyAll_cons hne hname,
              classifyAll_cons hdash hw, hrest] at h
            have hcollect : collect g (.switch s none :: .value value :: ws) =
                .ok g' := h
            rw [collect_text hs] at hcollect
            cases hset : g.set s (.text value) with
            | error stop =>
              rw [hset] at hcollect
              cases hcollect
            | ok g₁ =>
              rw [hset] at hcollect
              refine ⟨value, rest, g₁, rfl, hw, hset, ?_⟩
              unfold gather
              rw [hrest]
              exact hcollect
          | _ =>
            refine (hnone _
              (by rw [classifyAll_cons hdash hw, hrest]; rfl) ?_).elim
            intro _ _ heq
            cases heq

omit hname hne hs

-- ========================================================== command lines

def targetSwitch : Switch := ⟨"--target", .text, ["--target-file"]⟩

def poolSwitch : Switch := ⟨"--pool", .text, []⟩

/-- What is given by a target text and a pool file. -/
def inputsGiven (target pool : String) : Given :=
  ⟨[("--pool", .text pool), ("--target", .text target)], false⟩

/-- The switches have an option for a target text and one for a pool. -/
structure HasInputs (switches : List Switch) : Prop where
  target : switches.find? (·.name == "--target") = some targetSwitch
  pool : switches.find? (·.name == "--pool") = some poolSwitch

/-- Every command on files knows the two options for its inputs. -/
theorem hasInputs_source : HasInputs sourceSwitches := ⟨rfl, rfl⟩

theorem hasInputs_solve : HasInputs solveSwitches := ⟨rfl, rfl⟩

theorem HasInputs.classify_target (h : HasInputs switches) :
    classify switches "--target" = .ok (.switch targetSwitch none) :=
  classify_of_exact (by decide +kernel) h.target

theorem HasInputs.classify_pool (h : HasInputs switches) :
    classify switches "--pool" = .ok (.switch poolSwitch none) :=
  classify_of_exact (by decide +kernel) h.pool

/-- Values that are taken for values are given. What stands behind
them is gathered with both known. -/
theorem gather_inputs (h : HasInputs switches)
    (htarget : classify switches target = .ok (.value target))
    (htarget' : target ≠ "--")
    (hpool : classify switches pool = .ok (.value pool))
    (hpool' : pool ≠ "--") :
    gather switches ⟨[], false⟩ ("--target" :: target :: "--pool" ::
      pool :: words) =
      gather switches (inputsGiven target pool) words := by
  rw [gather_text h.classify_target (by decide) rfl htarget htarget' rfl,
    gather_text h.classify_pool (by decide) rfl hpool hpool' rfl]
  rfl

/-- If they are taken at all, they are taken as given. There is no
second way to read them. -/
theorem gather_of_inputs (h : HasInputs switches)
    (hgather : gather switches ⟨[], false⟩
      ("--target" :: target :: "--pool" :: pool :: words) =
      .ok g') : gather switches (inputsGiven target pool) words = .ok g' := by
  obtain ⟨_, _, g₁, hwords, -, hset, hrest⟩ :=
    exists_of_gather_text h.classify_target (by decide) rfl hgather
  cases hwords
  cases hset
  obtain ⟨_, _, g₂, hwords, -, hset, hrest⟩ :=
    exists_of_gather_text h.classify_pool (by decide) rfl hrest
  cases hwords
  cases hset
  exact hrest

/-- A first word without a dash in front names the command. -/
theorem parse_cons (h : name.startsWith "-" = false) (words : List String) :
    parse (name :: words) = parseCommand name words := by
  unfold parse
  rw [parseFrom, if_neg (ne_of_plain h), classify_of_plain h]
  dsimp only
  cases parseCommand name words <;> rfl

/-- A command line that asks for an answer. -/
def solveWords (target pool : String) (reduced : Bool) : List String :=
  "solve" :: "--target" :: target :: "--pool" :: pool ::
    if reduced then [] else ["--no-optimize"]

/-- A command line that asks for a check. -/
def validateWords (target pool : String) : List String :=
  ["validate", "--target", target, "--pool", pool]

/-- The words behind the pool say whether the answer is to be reduced.
It is the one option that is varied here. -/
theorem exists_gather_reduced (target pool : String) (reduced : Bool) :
    ∃ g, gather solveSwitches (inputsGiven target pool)
        (if reduced then [] else ["--no-optimize"]) = .ok g ∧
      (do
        let (target, pool) ← source g
        if g.surplus then throw Stop.misuse
        return Command.solve target pool (!g.has "--no-optimize")
          (g.has "--determinism-check")
          ((g.text? "--receipts").bind Argument.value?)) =
        .ok (.solve (.text (.value target))
          (.value pool) reduced false none) := by
  cases reduced with
  | true => exact ⟨_, rfl, rfl⟩
  | false =>
    have hflag : classify solveSwitches "--no-optimize" =
        .ok (.switch ⟨"--no-optimize", .flag, []⟩ none) :=
      classify_of_exact (by decide +kernel) rfl
    refine ⟨⟨("--no-optimize", .flag) :: (inputsGiven target pool).settings,
      false⟩, ?_, rfl⟩
    unfold gather
    rw [if_neg Bool.false_ne_true, classifyAll_cons (by decide) hflag]
    rfl

/-- The words of a solving command are gathered first, and only then
is it looked for what is missing. -/
theorem parseCommand_solve (words : List String) :
    parseCommand "solve" words =
      gather solveSwitches ⟨[], false⟩ words >>= fun g => do
      let (target, pool) ← source g
      if g.surplus then throw .misuse
      return .solve target pool (!g.has "--no-optimize")
        (g.has "--determinism-check")
        ((g.text? "--receipts").bind Argument.value?) := rfl

/-- If it is accepted, it means what it says. Hex text could not begin
with a dash, but a path could. -/
theorem eq_of_parse_solveWords {command : Command} {reduced : Bool}
    (h : parse (solveWords target pool reduced) = .ok command) :
    command = .solve (.text (.value target))
      (.value pool) reduced false none := by
  obtain ⟨g, hflags, hcommand⟩ := exists_gather_reduced target pool reduced
  unfold solveWords at h
  rw [parse_cons (by decide +kernel), parseCommand_solve] at h
  cases hgiven : gather solveSwitches ⟨[], false⟩
    ("--target" :: target :: "--pool" :: pool ::
      if reduced then [] else ["--no-optimize"]) with
  | error stop =>
    rw [hgiven] at h
    cases h
  | ok given =>
    cases hflags.symm.trans (gather_of_inputs hasInputs_solve hgiven)
    rw [hgiven] at h
    cases hcommand.symm.trans h
    rfl

/-- Words that do not look like options are accepted. So printed
values and plain paths make a command line that is taken. -/
theorem parse_solveWords (htarget : target.startsWith "-" = false)
    (hpool : pool.startsWith "-" = false) (reduced : Bool) :
    parse (solveWords target pool reduced) =
      .ok (.solve (.text (.value target))
        (.value pool) reduced false none) := by
  obtain ⟨g, hflags, hcommand⟩ := exists_gather_reduced target pool reduced
  unfold solveWords
  rw [parse_cons (by decide +kernel), parseCommand_solve,
    gather_inputs hasInputs_solve (classify_of_plain htarget)
      (ne_of_plain htarget)
      (classify_of_plain hpool) (ne_of_plain hpool), hflags]
  exact hcommand

/-- With a plain target and a file that is taken for a value, it is
accepted. -/
theorem parse_validateWords (htarget : target.startsWith "-" = false)
    (hpool : classify sourceSwitches pool = .ok (.value pool)) :
    parse (validateWords target pool) =
      .ok (.validate (.text (.value target)) (.value pool)) := by
  have hpool' : pool ≠ "--" := by
    rintro rfl
    have hdash : (classify sourceSwitches "--").toOption = none := by
      decide +kernel
    rw [hpool] at hdash
    cases hdash
  have hcommand : ∀ words, parseCommand "validate" words =
      gather sourceSwitches ⟨[], false⟩ words >>= fun g => do
        let (target, pool) ← source g
        if g.surplus then throw .misuse
        return .validate target pool := fun _ => rfl
  unfold validateWords
  rw [parse_cons (by decide +kernel), hcommand,
    gather_inputs hasInputs_source (classify_of_plain htarget)
      (ne_of_plain htarget) hpool hpool']
  rfl

end XorSpan.Cli
