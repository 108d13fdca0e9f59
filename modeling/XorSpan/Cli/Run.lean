/-
Carrying out a command: what is printed, what is written to a file, and
with what status the program ends.

Bad input ends a command with status 1 before anything is printed. Faults
of the run have the statuses of `Fault.exitCode?`; the few that have none
go through to the system, as do a receipts file that cannot be written, a
random problem that is too large, and an option whose value is wanted and
missing.
Notices about progress are shown only in a verbose run, in which receipts
that go to no file are shown too.
-/
import XorSpan.Cli.Arguments
import XorSpan.HashList
import XorSpan.Json.Indented
import XorSpan.Random.Pool
import XorSpan.Request

namespace XorSpan.Cli

/-- What a command finds around it. -/
structure World where
  disk : Disk
  /-- Stands in where the user gives no seed for a random problem. -/
  entropy : Nat
  verbose : Bool

/-- Why a command has nothing to work on. -/
inductive InputError where
  | hex (error : HexError)
  | list (error : HashListError)
  | noHash (path : String)
  | random (error : Random.PoolError)
  | wrongKind (error : KindError)

def InputError.message : InputError → String
  | .hex error => error.message
  | .list error => error.message
  | .noHash path => s!"No hash in {path}"
  | .random error => error.message
  | .wrongKind error => error.message

/-- How a command ends. -/
inductive Ending where
  | status (code : Nat)
  | stopped (stop : Stop)
  /-- A fault that no command expects. -/
  | fault (fault : Fault)
  /-- A request that the machine has no room for. -/
  | capacity (error : CapacityError)
  /-- A missing value. -/
  | wrongKind (error : KindError)
  | disk (error : DiskError)

structure Outcome where
  stdout : String
  stderr : String
  ending : Ending
  /-- A file that was written: its path and its text. -/
  saved : Option (String × String) := none

-- ================================================================= input

/-- The value of an option. A missing one leaves an empty list, which
does not have what is needed. -/
def Argument.get {α : Type} (a : Argument α) (need : Need) :
    Except InputError α :=
  match a with
  | .value a => .ok a
  | .missing => .error (.wrongKind ((Datum.list []).lacks need))

/-- The target: hex text with blanks around it, or the first value of
a hash list. -/
def readTarget (disk : Disk) : TargetSource → Except InputError Bytes
  | .text hex => do
      let hex ← hex.get .trimming
      match Bytes.ofHex (some (String.ofList (Text.trim hex.toList))) with
      | .ok b => return b
      | .error e => throw (.hex e)
  | .file path => do
      let path ← path.get .path
      match HashList.read disk path with
      | .error e => throw (.list e)
      | .ok [] => throw (.noHash path)
      | .ok (b :: _) => return b

/-- The target and the values of a command. -/
def readInputs (disk : Disk) (target : TargetSource) (pool : Argument String) :
    Except InputError (Bytes × List Bytes) := do
  let target ← readTarget disk target
  match HashList.read disk (← pool.get .path) with
  | .ok values => return (target, values)
  | .error e => throw (.list e)

/-- A random problem from the user's seed or the world's. The length
is looked at before the seed. -/
def randomInputs (world : World) (length : Argument Int)
    (seed : Option (Argument Int)) :
    Except InputError (Bytes × List Bytes) := do
  let length ← length.get .order
  (Random.checkPositive length).mapError .random
  let seed ← match seed with
    | some n => pure (Random.Seed.chosen (← n.get .seed))
    | none => pure (.entropy world.entropy)
  (Random.problem length Parameters.randomPoolFactor seed).mapError .random

-- ================================================================ output

/-- A complaint about the input. Want of room is none, nor is want of
a value: they go through to the system. -/
def refuse : InputError → Outcome
  | .random (.capacity e) => ⟨"", "", .capacity e, none⟩
  | .wrongKind e => ⟨"", "", .wrongKind e, none⟩
  | e => ⟨"", s!"Error: {e.message}\n", .status 1, none⟩

/-- The notices of a run, as far as they are shown. -/
def World.notices (world : World) (p : Progress) : String :=
  if world.verbose then textOfLines p.notices else ""

/-- The end of a run by a fault, called `label` if it is a defect. -/
def failed (label stdout stderr : String) (fault : Fault) : Outcome :=
  let label := match fault with
    | .defect .. => label
    | _ => "Error"
  match fault.exitCode? with
  | some code =>
      ⟨stdout, stderr ++ s!"{label}: {fault.message}\n", .status code, none⟩
  | none => ⟨stdout, stderr, .fault fault, none⟩

/-- Values as they are printed, one to a line. -/
def printValues (values : List Bytes) : String :=
  textOfLines (values.map Bytes.toHex).toArray

/-- Puts the receipts where they belong: into the file asked for, else
to the notices of a verbose run. -/
def deliver (world : World) (a : Answer) (path : Option String)
    (stdout stderr : String) :
    Outcome :=
  let text := a.receipts.indented
  match path.filter (!·.isEmpty) with
  | none => ⟨stdout, if world.verbose then stderr ++ text ++ "\n" else stderr,
      .status 0, none⟩
  | some path =>
      match world.disk.obstacle? path with
      | some problem => ⟨stdout, stderr, .disk ⟨problem, path⟩, none⟩
      | none =>
          ⟨stdout, stderr ++ s!"Receipts written to: {path}\n", .status 0,
            some (path, text)⟩

/-- Prints an answer between an opening and a closing text. -/
def printAnswer (world : World) (opening : String) (closing : Answer → String)
    (receipts : Option String) (t : Job Answer) : Outcome :=
  match t.start .never with
  | (.error fault, p) => failed "Error" opening (world.notices p) fault
  | (.ok a, p) =>
      deliver world a receipts (opening ++ printValues a.values ++ closing a)
        (world.notices p)

-- ============================================================== commands

/-- The level of an answer that is to be reduced or not. -/
def levelOf (reduced : Bool) : Level := if reduced then .base else .computed

def Command.run (world : World) : Command → Outcome
  | .solve target pool reduced checked receipts =>
      match readInputs world.disk target pool with
      | .error e => refuse e
      | .ok (target, pool) =>
          let find := if checked then Answer.findChecked else Answer.find
          printAnswer world "" (fun _ => "") receipts
            (find (levelOf reduced) target pool)
  | .chart target pool footer =>
      match readInputs world.disk target pool with
      | .error e => refuse e
      | .ok (target, pool) =>
          match (drawChart target pool footer).start .never with
          | (.ok _, p) => ⟨p.text, world.notices p, .status 0, none⟩
          | (.error fault, p) => failed "Error" p.text (world.notices p) fault
  | .validate target pool =>
      match readInputs world.disk target pool with
      | .error e => refuse e
      | .ok (target, values) =>
          match checkSum .validate target values with
          | .ok () => ⟨"OK\n", "", .status 0, none⟩
          | .error fault => failed "MISMATCH" "" "" fault
  | .demo length seed reduced =>
      match randomInputs world length seed with
      | .error e => refuse e
      | .ok (target, pool) =>
          printAnswer world
            s!"Trying to break a XOR sum for a {target.size * 8} bit hash...\n"
            (fun a => s!"Hashes needed: {a.values.length}\n") none
            (Answer.find (levelOf reduced) target pool)

def run (world : World) (words : List String) : Outcome :=
  match parse words with
  | .error stop => ⟨"", "", .stopped stop, none⟩
  | .ok command => command.run world

end XorSpan.Cli
