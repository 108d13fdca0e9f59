/-
The command line as the user wrote it, taken apart.

The first word that is not an option names the command; everything behind
it belongs to the command. A command has options only. An option is
written out, or shortened to a beginning that no other option shares; the
value of one that takes a value stands behind it or is joined on by an
equals sign. A word that looks like a negative number is a value. Behind
a double dash all words would be operands, which no command has. A double
dash that is joined to an option is taken away; the option has then been
given, but without a value.

Parsing stops at the first thing that settles the matter: a request for
help, or a misuse.
-/
import XorSpan.Text.Integer

namespace XorSpan.Cli

-- =============================================================== commands

/-- What an option that takes a value was given. -/
inductive Argument (α : Type) where
  | value (a : α)
  /-- A double dash and no value. -/
  | missing
deriving DecidableEq, Repr

/-- The value, if there is one. -/
def Argument.value? {α : Type} : Argument α → Option α
  | .value a => some a
  | .missing => none

inductive TargetSource where
  | text (hex : Argument String)
  | file (path : Argument String)
deriving DecidableEq, Repr

inductive Command where
  /-- Print an answer: `reduced` to pool members or as computed, `checked`
  or not, with the receipts written to a file or not. -/
  | solve (target : TargetSource) (pool : Argument String)
      (reduced checked : Bool)
      (receipts : Option String)
  /-- Print a chart. -/
  | chart (target : TargetSource) (pool : Argument String) (footer : Bool)
  /-- Check that a list adds up to a target. -/
  | validate (target : TargetSource) (pool : Argument String)
  /-- Print an answer to a random problem. -/
  | demo (length : Argument Int) (seed : Option (Argument Int)) (reduced : Bool)
deriving DecidableEq, Repr

/-- Why no command is carried out. -/
inductive Stop where
  | help
  | misuse
deriving DecidableEq, Repr

-- =============================================================== options

/-- What an option does with the words behind it. -/
inductive Arity where
  | help
  | flag
  | text
  | integer
deriving DecidableEq, Repr

structure Switch where
  /-- The option written out, dashes included. -/
  name : String
  arity : Arity
  /-- Options that cannot be given beside this one. -/
  rivals : List String := []
deriving DecidableEq, Repr

def helpSwitches : List Switch := [⟨"-h", .help, []⟩, ⟨"--help", .help, []⟩]

inductive Word where
  | value (text : String)
  /-- An option, with what is joined to it: behind an equals sign or, for
  an option of one dash, directly. -/
  | switch (switch : Switch) (joined : Option String)
  /-- An option that there is none of. -/
  | unknown
  /-- The double dash, or a word behind it. -/
  | operand
deriving DecidableEq, Repr

/-- Splits a word at its first equals sign. -/
def splitJoined (word : String) : Option (String × String) :=
  let cs := word.toList
  let before := cs.takeWhile (· != '=')
  match cs.drop before.length with
  | [] => none
  | _ :: after => some (String.ofList before, String.ofList after)

/-- What the beginning of a long option may stand for, with what is
joined to it. -/
def shortened (switches : List Switch) (word : String) : List Word :=
  let (stem, joined) := match splitJoined word with
    | some (stem, text) => (stem, some text)
    | none => (word, none)
  (switches.filter (·.name.startsWith stem)).map fun s => .switch s joined

/-- What a word that begins with a short option may stand for. -/
def clustered (switches : List Switch) (word : String) : List Word :=
  let cs := word.toList
  (switches.filter fun s => s.name.toList == cs.take 2).map fun s =>
    .switch s (some (String.ofList (cs.drop 2)))

/-- Tells what a word is. -/
def classify (switches : List Switch) (word : String) : Except Stop Word :=
  let exact (name : String) : Option Switch := switches.find? (·.name == name)
  if !word.startsWith "-" then .ok (.value word)
  else match exact word with
    | some s => .ok (.switch s none)
    | none =>
      if word = "-" then .ok (.value word)
      else match (splitJoined word).bind fun (name, text) =>
          (exact name).map (·, text) with
        | some (s, text) => .ok (.switch s (some text))
        | none =>
          match (if word.startsWith "--" then shortened else clustered)
            switches word with
          | [w] => .ok w
          | _ :: _ :: _ => .error .misuse
          | [] =>
              if Text.looksNegative word || word.contains ' ' then
                .ok (.value word)
              else .ok .unknown

def classifyAll (switches : List Switch) : List String → Except Stop (List Word)
  | [] => .ok []
  | word :: words =>
      if word = "--" then .ok (.operand :: words.map fun _ => .operand)
      else do
        let w ← classify switches word
        let ws ← classifyAll switches words
        return w :: ws

-- =================================================== options of a command

/-- What an option was given as. -/
inductive Setting where
  | flag
  | text (text : String)
  | integer (n : Int)
  /-- An option that takes a value, without one. -/
  | missing
deriving DecidableEq, Repr

/-- The options given so far, the latest first, and whether there was
a word too many. -/
structure Given where
  settings : List (String × Setting)
  surplus : Bool

namespace Given

def has (g : Given) (name : String) : Bool := g.settings.any (·.1 == name)

def text? (g : Given) (name : String) : Option (Argument String) :=
  match g.settings.lookup name with
  | some (.text text) => some (.value text)
  | some .missing => some .missing
  | _ => none

def integer? (g : Given) (name : String) : Option (Argument Int) :=
  match g.settings.lookup name with
  | some (.integer n) => some (.value n)
  | some .missing => some .missing
  | _ => none

/-- Adds a setting unless a rival has been given. -/
def set (g : Given) (s : Switch) (setting : Setting) : Except Stop Given :=
  if s.rivals.any g.has then .error .misuse
  else .ok { g with settings := (s.name, setting) :: g.settings }

/-- Gives an option its value. -/
def setValue (g : Given) (s : Switch) (value : String) : Except Stop Given :=
  match s.arity with
  | .integer =>
      match Text.integer? value with
      | some n => g.set s (.integer n)
      | none => .error .misuse
  | _ => g.set s (.text value)

/-- Gives an option the value joined to it. -/
def setJoined (g : Given) (s : Switch) (value : String) : Except Stop Given :=
  if value = "--" then g.set s .missing else g.setValue s value

end Given

/-- Help takes no text. What is joined to its short form are more
options of one dash, all of which have to be its short form again. -/
def stopForHelp (s : Switch) : Option String → Stop
  | none => .help
  | some joined =>
      if s.name = "-h" ∧ joined ≠ "" ∧ joined.toList.all (· == 'h') then .help
      else .misuse

/-- Takes the words of a command one after the other. -/
def collect (g : Given) : List Word → Except Stop Given
  | [] => .ok g
  | .switch s joined :: words =>
      match s.arity, joined, words with
      | .help, joined, _ => .error (stopForHelp s joined)
      | .flag, none, words => do
          let g ← g.set s .flag
          collect g words
      | .flag, some _, _ => .error .misuse
      | _, some value, words => do
          let g ← g.setJoined s value
          collect g words
      | _, none, .value value :: words => do
          let g ← g.setValue s value
          collect g words
      | _, none, _ => .error .misuse
  | _ :: words => collect { g with surplus := true } words

-- ================================================================ grammar

def sourceSwitches : List Switch :=
  helpSwitches ++
    [⟨"--target", .text, ["--target-file"]⟩,
      ⟨"--target-file", .text, ["--target"]⟩,
     ⟨"--pool", .text, []⟩]

def solveSwitches : List Switch :=
  sourceSwitches ++
    [⟨"--no-optimize", .flag, []⟩, ⟨"--determinism-check", .flag, []⟩,
      ⟨"--receipts", .text, []⟩]

def chartSwitches : List Switch := sourceSwitches ++ [⟨"--footer", .flag, []⟩]

def demoSwitches : List Switch :=
  helpSwitches ++
    [⟨"--bytes", .integer, []⟩, ⟨"--seed", .integer, []⟩,
      ⟨"--no-optimize", .flag, []⟩]

/-- The target and the pool, both of which have to be given. -/
def source (g : Given) : Except Stop (TargetSource × Argument String) :=
  match g.text? "--target", g.text? "--target-file", g.text? "--pool" with
  | some hex, _, some pool => .ok (.text hex, pool)
  | none, some path, some pool => .ok (.file path, pool)
  | _, _, _ => .error .misuse

/-- The options of a command, when its words hold nothing else. -/
def options (switches : List Switch) (words : List String) :
    Except Stop Given := do
  let g ← collect ⟨[], false⟩ (← classifyAll switches words)
  return g

/-- A command from its name and the words behind it. -/
def parseCommand (name : String) (words : List String) :
    Except Stop Command := do
  match name with
  | "solve" =>
      let g ← options solveSwitches words
      let (target, pool) ← source g
      if g.surplus then throw .misuse
      return .solve target pool (!g.has "--no-optimize")
        (g.has "--determinism-check")
        ((g.text? "--receipts").bind Argument.value?)
  | "mermaid" =>
      let g ← options chartSwitches words
      let (target, pool) ← source g
      if g.surplus then throw .misuse
      return .chart target pool (g.has "--footer")
  | "validate" =>
      let g ← options sourceSwitches words
      let (target, pool) ← source g
      if g.surplus then throw .misuse
      return .validate target pool
  | "demo" =>
      let g ← options demoSwitches words
      if g.surplus then throw .misuse
      return .demo ((g.integer? "--bytes").getD (.value 32))
        (g.integer? "--seed")
        (!g.has "--no-optimize")
  | _ => throw .misuse

/-- Finds the command among the words; `surplus` when an option in
front of it was none. -/
def parseFrom (surplus : Bool) : List String → Except Stop Command
  | [] => .error .misuse
  | word :: words =>
      if word = "--" then .error .misuse
      else match classify helpSwitches word with
        | .error stop => .error stop
        | .ok (.switch s joined) => .error (stopForHelp s joined)
        | .ok (.value name) => do
            let command ← parseCommand name words
            if surplus then .error .misuse else .ok command
        | .ok _ => parseFrom true words

/-- The command that a command line asks for. -/
def parse (words : List String) : Except Stop Command := parseFrom false words

end XorSpan.Cli
