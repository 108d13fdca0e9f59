/-
Comparing two runs of one pass by their digests. Equal hashes mean equal
runs. Otherwise the report names the first key under which the payloads
differ as data, keys of the first run first, then those only the second
has. A key that one run lacks counts as holding a placeholder text.

The hashes tell more apart than the comparison of values does, so a
drift can be found without any key to blame; and the values are reported
only under a key that is not empty.
-/
import XorSpan.Json.Literal
import XorSpan.Receipt.Basic

namespace XorSpan

/-- Two runs that should have agreed and did not. -/
structure Drift where
  name : String
  key : Option String
  left : Json
  right : Json
  leftHash : String
  rightHash : String
deriving Inhabited

namespace Drift

/-- Stands for the value of a key that a run lacks. -/
def missing : Json := .str "<MISSING>"

def valueAt (payload : List (String × Json)) (key : String) : Json :=
  (payload.lookup key).getD missing

/-- The keys of the first payload, then those only the second has. -/
def keys (left right : List (String × Json)) : List String :=
  left.map (·.1) ++ (right.map (·.1)).filter fun k => !left.any (·.1 == k)

/-- The first key under which two payloads differ. -/
def firstKey (left right : List (String × Json)) : Option String :=
  (keys left right).find? fun k => !(valueAt left k).same (valueAt right k)

/-- The report on two digests, if their hashes differ. -/
def between (left right : Digest) : Option Drift :=
  if left.hash = right.hash then none
  else
    let key := firstKey left.payload right.payload
    let report (payload : List (String × Json)) : Json :=
      match key with
      | none => .null
      | some k => if k.isEmpty then .null else valueAt payload k
    some ⟨left.name, key, report left.payload, report right.payload,
      left.hash, right.hash⟩

def message (d : Drift) : String :=
  let key := d.key.getD "None"
  s!"Double-run hash mismatch in section '{d.name}'.\n" ++
    s!"  First differing key: '{key}'\n" ++
    s!"  Value A: {d.left.shown}\n" ++
    s!"  Value B: {d.right.shown}\n" ++
    s!"  Hash A: {d.leftHash}\n" ++
    s!"  Hash B: {d.rightHash}"

end Drift

end XorSpan
