/-
What a command is given to work on. A source and a pool either give a
target and values (`Reads`), or reading them comes upon an option that
has no value (`Lacks`), or there is a complaint about what is there. These
are the only cases, and no two of them are met together (`inputReading`).
-/
import XorSpan.Cli.Run

namespace XorSpan.Cli

variable {disk : Disk} {target : TargetSource} {pool : Argument String}
  {t : Bytes} {values : List Bytes}

-- =============================================================== readings

/-- The target that a source gives. -/
inductive ReadsTarget (disk : Disk) : TargetSource → Bytes → Prop where
  | text {hex : String} {t : Bytes}
      (spells : Bytes.ofHex? (String.ofList (Text.trim hex.toList)) = some t) :
      ReadsTarget disk (.text (.value hex)) t
  | file {path : String} {t : Bytes} {more : List Bytes}
      (read : HashList.read disk path = .ok (t :: more)) :
      ReadsTarget disk (.file (.value path)) t

/-- The target and the values that a source and a pool give. -/
inductive Reads (disk : Disk) (target : TargetSource) :
    Argument String → Bytes → List Bytes → Prop where
  | inputs {path : String} {t : Bytes} {values : List Bytes}
      (source : ReadsTarget disk target t)
      (read : HashList.read disk path = .ok values) :
      Reads disk target (.value path) t values

/-- Reading comes upon an option that has no value. -/
inductive Lacks (disk : Disk) : TargetSource → Argument String → Prop where
  | text (pool : Argument String) : Lacks disk (.text .missing) pool
  | file (pool : Argument String) : Lacks disk (.file .missing) pool
  | pool {target : TargetSource} {t : Bytes}
      (source : ReadsTarget disk target t) :
      Lacks disk target .missing

/-- Inputs that can be read lack nothing: no option was left empty by
a double dash. -/
theorem Reads.not_lacks (h : Reads disk target pool t values) :
    ¬Lacks disk target pool := by
  intro hlacks
  cases h with
  | inputs source =>
    cases hlacks with
    | text => cases source
    | file => cases source

/-- The input is refused with a complaint, and with status 1. -/
def IsComplaint (e : InputError) : Prop :=
  refuse e = ⟨"", s!"Error: {e.message}\n", .status 1, none⟩

/-- That a text is not hex text is a complaint about the input, which
is told and ends with status 1. -/
theorem isComplaint_hex (e : HexError) : IsComplaint (.hex e) := rfl

/-- So is all that can be wrong with a file of values, from its path
to its lines. -/
theorem isComplaint_list (e : HashListError) : IsComplaint (.list e) := rfl

/-- And so is a file for the target that holds no value. -/
theorem isComplaint_noHash (path : String) : IsComplaint (.noHash path) := rfl

/-- What reading a source comes to. -/
inductive TargetReading (disk : Disk) (target : TargetSource) :
    Except InputError Bytes → Prop where
  | read {t : Bytes} (source : ReadsTarget disk target t) :
      TargetReading disk target (.ok t)
  | lacking {e : KindError} (lacks : ∀ pool, Lacks disk target pool) :
      TargetReading disk target (.error (.wrongKind e))
  | refused {e : InputError} (complaint : IsComplaint e)
      (unread : ∀ t, ¬ReadsTarget disk target t)
      (present : ∀ pool, ¬Lacks disk target pool) :
      TargetReading disk target (.error e)

/-- What reading a source and a pool comes to. -/
inductive InputReading (disk : Disk) (target : TargetSource)
    (pool : Argument String) :
    Except InputError (Bytes × List Bytes) → Prop where
  | read {t : Bytes} {values : List Bytes}
      (inputs : Reads disk target pool t values) :
      InputReading disk target pool (.ok (t, values))
  | lacking {e : KindError} (lacks : Lacks disk target pool) :
      InputReading disk target pool (.error (.wrongKind e))
  | refused {e : InputError} (complaint : IsComplaint e)
      (unread : ∀ t values, ¬Reads disk target pool t values)
      (present : ¬Lacks disk target pool) :
      InputReading disk target pool (.error e)

-- ================================================================ sources

/-- A target given as text is trimmed and read as hex text, and the
complaint names the text as it is after trimming. -/
theorem readTarget_text (disk : Disk) (hex : String) :
    readTarget disk (.text (.value hex)) =
    match Bytes.ofHex? (String.ofList (Text.trim hex.toList)) with
    | some t => .ok t
    | none => .error
        (.hex (.invalid (some (String.ofList (Text.trim hex.toList))))) := by
  unfold readTarget Bytes.ofHex
  dsimp only [Argument.get, bind, Except.bind, Option.bind_some]
  generalize Bytes.ofHex? (String.ofList (Text.trim hex.toList)) = r
  cases r <;> rfl

/-- A target given as a file is the first value in it. The others are
read with it, and a line that breaks the rule spoils the target even
if it comes later. -/
theorem readTarget_file (disk : Disk) (path : String) :
    readTarget disk (.file (.value path)) =
    match HashList.read disk path with
    | .error e => .error (.list e)
    | .ok [] => .error (.noHash path)
    | .ok (t :: _) => .ok t := by
  unfold readTarget
  dsimp only [Argument.get, bind, Except.bind]
  generalize HashList.read disk path = r
  cases r with
  | error e => rfl
  | ok values => cases values <;> rfl

/-- The target is read before the pool, so of two complaints the one
about the target is told. -/
theorem readInputs_value (disk : Disk) (target : TargetSource) (path : String) :
    readInputs disk target (.value path) =
      match readTarget disk target, HashList.read disk path with
      | .ok t, .ok values => .ok (t, values)
      | .ok _, .error e => .error (.list e)
      | .error e, _ => .error e := by
  unfold readInputs
  dsimp only [Argument.get, bind, Except.bind]
  generalize HashList.read disk path = r
  cases readTarget disk target with
  | error e => rfl
  | ok t => cases r <;> rfl

/-- A text is read or complained of; nothing is missing. -/
theorem targetReading_text (disk : Disk) (hex : String) :
    TargetReading disk (.text (.value hex)) (readTarget disk
      (.text (.value hex))) := by
  rw [readTarget_text]
  cases hspells : Bytes.ofHex? (String.ofList (Text.trim hex.toList)) with
  | some t => exact .read (.text hspells)
  | none =>
    refine .refused (isComplaint_hex _) ?_ ?_
    · intro t ht
      cases ht with
      | text spells =>
        rw [hspells] at spells
        cases spells
    · intro pool hlacks
      cases hlacks with
      | pool source =>
        cases source with
        | text spells =>
          rw [hspells] at spells
          cases spells

/-- And so is a file. -/
theorem targetReading_file (disk : Disk) (path : String) :
    TargetReading disk (.file (.value path)) (readTarget disk
      (.file (.value path))) := by
  -- whatever the complaint, no target is read and no value is wanted
  have hnone : ∀ {e : InputError}, IsComplaint e →
      (∀ t more, HashList.read disk path ≠ .ok (t :: more)) →
      TargetReading disk (.file (.value path)) (.error e) := by
    intro e complaint hempty
    refine .refused complaint ?_ ?_
    · intro t ht
      cases ht with
      | file read => exact hempty _ _ read
    · intro pool hlacks
      cases hlacks with
      | pool source =>
        cases source with
        | file read => exact hempty _ _ read
  rw [readTarget_file]
  cases hlist : HashList.read disk path with
  | error e =>
    exact hnone (isComplaint_list e) (by rw [hlist]; intro _ _ h; cases h)
  | ok values =>
    cases values with
    | nil =>
      exact hnone (isComplaint_noHash path)
        (by rw [hlist]; intro _ _ h; cases h)
    | cons t more => exact .read (.file hlist)

/-- Reading the target goes one of the ways there are: it is read, it
is complained of, or there is nothing to read. -/
theorem targetReading (disk : Disk) (target : TargetSource) :
    TargetReading disk target (readTarget disk target) := by
  cases target with
  | text hex =>
    cases hex with
    | value hex => exact targetReading_text disk hex
    | missing => exact .lacking .text
  | file path =>
    cases path with
    | value path => exact targetReading_file disk path
    | missing => exact .lacking .file

-- ================================================================= inputs

/-- Reading both inputs goes one of these ways as well. What is
missing is found when it is used, so a complaint about the target
comes before a missing pool. -/
theorem inputReading (disk : Disk) (target : TargetSource)
    (pool : Argument String) :
    InputReading disk target pool (readInputs disk target pool) := by
  have htarget := targetReading disk target
  cases pool with
  | missing =>
    unfold readInputs
    generalize readTarget disk target = r at htarget
    cases htarget with
    | lacking lacks => exact .lacking (lacks .missing)
    | refused complaint _ present =>
      refine .refused complaint ?_ (present .missing)
      intro t values hreads
      cases hreads
    | read source => exact .lacking (.pool source)
  | value path =>
    rw [readInputs_value]
    generalize readTarget disk target = r at htarget
    cases htarget with
    | lacking lacks => exact .lacking (lacks (.value path))
    | refused complaint unread present =>
      refine .refused complaint ?_ (present (.value path))
      intro t values hreads
      cases hreads with
      | inputs source => exact unread t source
    | @read t source =>
      cases hlist : HashList.read disk path with
      | ok values => exact .read (.inputs source hlist)
      | error e =>
        refine .refused (isComplaint_list e) ?_ ?_
        · intro t values hreads
          cases hreads with
          | inputs _ read =>
            rw [hlist] at read
            cases read
        · intro hlacks
          cases hlacks with
          | text => cases source
          | file => cases source

/-- A target that can be read is what is read. -/
theorem ReadsTarget.readTarget_eq (h : ReadsTarget disk target t) :
    readTarget disk target = .ok t := by
  cases h with
  | text spells => rw [readTarget_text, spells]
  | file read => rw [readTarget_file, read]

/-- What is given is what is read. -/
theorem Reads.readInputs_eq (h : Reads disk target pool t values) :
    readInputs disk target pool = .ok (t, values) := by
  cases h with
  | inputs source read => rw [readInputs_value, source.readTarget_eq, read]

/-- So there is only one thing that can be read from given inputs. -/
theorem Reads.unique {u : Bytes} {others : List Bytes}
    (h : Reads disk target pool t values)
    (h' : Reads disk target pool u others) : u = t ∧ others = values := by
  have heq := h.readInputs_eq.symm.trans h'.readInputs_eq
  cases heq
  exact ⟨rfl, rfl⟩

end XorSpan.Cli
