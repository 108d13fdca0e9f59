/-
Receipts: what one pass of the program did, as an ordered list of keys
and values. Closing a receipt yields a digest that binds its section
name, its payload and the program's constants to one hash.

Values are offered as data of any kind and stored as JSON: bytes become
upper-case hex, tuples become lists. Fractions are refused anywhere in a
value, and so are dictionary keys that are not strings and all kinds
that JSON does not know. A refused value leaves the receipt as it was.

Writing is a computation on a receipt that keeps what was written before
a failure: recording a list of values writes two entries, and the second
can fail after the first is in.
-/
import XorSpan.Reading
import XorSpan.Parameters
import XorSpan.Bytes.Hex

namespace XorSpan

/-- Why something cannot be written into a receipt. `path` is the key,
followed by the indices and keys that lead to the offending part. -/
inductive ReceiptError where
  | duplicateKey (key : String)
  | fraction (path : String)
  | foreignKey (path : String) (key : Datum)
  | foreignKind (path : String) (kind : String)
  | frame (error : FrameError)
  /-- A value to be framed cannot be read as bytes. -/
  | unreadable (error : ReadError)

def ReceiptError.message : ReceiptError → String
  | .duplicateKey key => s!"Duplicate key in receipts: '{key}'"
  | .fraction path => s!"Floats forbidden in receipts (key: '{path}')"
  | .foreignKey path key =>
      s!"Dict keys must be strings in receipts (key: '{path}', dict_key: {key.literal})"
  | .foreignKind path kind =>
      s!"Invalid type in receipts: {kind} (key: '{path}'). " ++
        "Allowed: int, bool, str, None, bytes, list, tuple, dict."
  | .frame error => error.message
  | .unreadable error => error.message

namespace Datum

mutual

def normalize (path : String) : Datum → Except ReceiptError Json
  | .null => .ok .null
  | .bool b => .ok (.bool b)
  | .int n => .ok (.int n)
  | .str s => .ok (.str s)
  | .bytes b => .ok (.str b.toHex)
  | .buffer b => .ok (.str b.toHex)
  | .float _ => .error (.fraction path)
  | .list items => (normalizeItems path 0 items).map .list
  | .tuple items => (normalizeItems path 0 items).map .list
  | .dict entries => (normalizeEntries path [] entries).map .dict
  | .view _ => .error (.foreignKind path "memoryview")
  | .other kind => .error (.foreignKind path kind)

/-- The stored forms of items, the first of which has number `index`. -/
def normalizeItems (path : String) (index : Nat) :
    List Datum → Except ReceiptError (List Json)
  | [] => .ok []
  | item :: items => do
      let v ← normalize s!"{path}[{index}]" item
      let vs ← normalizeItems path (index + 1) items
      return v :: vs

/-- Stores entries one after the other behind those in `stored`. -/
def normalizeEntries (path : String) (stored : List (String × Json)) :
    List (Datum × Datum) → Except ReceiptError (List (String × Json))
  | [] => .ok stored
  | (.str k, v) :: entries => do
      let w ← normalize s!"{path}.{k}" v
      normalizeEntries path (Json.put k w stored) entries
  | (key, _) :: _ => .error (.foreignKey path key)

end

end Datum

/-- A receipt under construction: a section name and entries in the
order they were written. -/
structure Receipt where
  name : String
  payload : List (String × Json)
deriving Inhabited

structure Digest where
  name : String
  formatVersion : String
  parameters : String
  payload : List (String × Json)
  hash : String
deriving Inhabited

namespace Receipt

/-- A computation that writes into a receipt. -/
abbrev Writer := EStateM ReceiptError Receipt

def blank (name : String) : Receipt := ⟨name, []⟩

/-- Writes a datum under a new key. -/
def put (key : String) (value : Datum) : Writer Unit := do
  let r ← get
  if r.payload.any (·.1 == key) then throw (.duplicateKey key)
  match value.normalize key with
  | .error e => throw e
  | .ok v => set { r with payload := r.payload ++ [(key, v)] }

/-- Writes the fingerprint of a list's frame under a key made from
`key`. -/
def putFrame (key : String) (values : List Bytes) : Writer Unit := do
  match Frame.encode values with
  | .error e => throw (.frame e)
  | .ok frame => put (key ++ ".hash") (.str (Hash.fingerprint frame))

/-- Records a list of values by its length and the fingerprint of its
frame, under two keys made from `key`. -/
def putValues (key : String) (values : List Bytes) : Writer Unit := do
  put (key ++ ".count") (.int values.length)
  putFrame key values

/-- Records a list of data that are to be byte values in the same way. -/
def putData (key : String) (data : List Datum) : Writer Unit := do
  put (key ++ ".count") (.int data.length)
  match data.mapM (Datum.read .copy) with
  | .error e => throw (.unreadable e)
  | .ok values => putFrame key values

/-- The entries that a digest's hash covers. -/
def covered (r : Receipt) : List (String × Json) :=
  [("section", .str r.name), ("format_version", .str Parameters.formatVersion),
   ("param_registry_hash", .str Parameters.digest),
   ("payload", .dict r.payload)]

def digest (r : Receipt) : Digest where
  name := r.name
  formatVersion := Parameters.formatVersion
  parameters := Parameters.digest
  payload := r.payload
  hash := Parameters.fingerprint (.dict r.covered)

/-- The receipt that a computation leaves of a blank one. -/
def write (name : String) (w : Writer Unit) : Except ReceiptError Receipt :=
  match w.run (blank name) with
  | .ok _ r => .ok r
  | .error e _ => .error e

-- ================================================================ scripts

/-- One call on a receipt. -/
inductive Step where
  | put (key : String) (value : Datum)
  | putValues (key : String) (values : List Datum)
  | digest

/-- What a call does to a receipt; closing it changes nothing. -/
def Step.run : Step → Writer Unit
  | .put key value => Receipt.put key value
  | .putValues key values => Receipt.putData key values
  | .digest => pure ()

/-- The calls one after the other, up to the first that fails. -/
def runSteps : List Step → Writer Unit
  | [] => pure ()
  | step :: steps => do step.run; runSteps steps

end Receipt

def Digest.json (d : Digest) : Json :=
  .dict [("section", .str d.name), ("format_version", .str d.formatVersion),
    ("param_registry_hash", .str d.parameters), ("payload", .dict d.payload),
    ("section_hash", .str d.hash)]

end XorSpan
