/-
The constants of the program. They are written down once here, and their
JSON form is hashed into every receipt, so two receipts can only agree
if they were made under the same constants.
-/
import XorSpan.Frame
import XorSpan.Hash.Blake3
import XorSpan.Json.Canonical

namespace XorSpan.Parameters

def formatVersion : String := "1.0"

/-- A pool holds at least this many values to every byte of the
target, one for each bit. -/
def candidateFactor : Nat := 8

/-- A random pool holds this many values to every bit of the target. -/
def randomPoolFactor : Nat := 12

def chartHeader : String := "flowchart TD"

def chartComment : String := "%%"

/-- Lines of a hash list that begin like this are comments. -/
def commentMarks : List Char := [';', '#']

/-- The largest hash list that is read, in bytes. -/
def hashListLimit : Nat := 1024 * 1024 * 100

/-- All constants under their names. -/
def json : Json :=
  .dict [
    ("format_version", .str formatVersion),
    ("bit_order", .str "msb-first"),
    ("hex_case", .str "upper"),
    ("candidate_factor", .int candidateFactor),
    ("random_pool_factor", .int randomPoolFactor),
    ("hash_algo", .str "BLAKE3"),
    ("diagram_header", .str chartHeader),
    ("diagram_comment_prefix", .str chartComment),
    ("hash_list_comment_prefixes",
      .list (commentMarks.map fun c => .str c.toString)),
    ("hash_list_max_bytes", .int hashListLimit),
    ("byte_frame_tags", .dict [("HASH_LIST", .str Frame.tag)])]

/-- The fingerprint of a JSON value is that of its canonical text. -/
def fingerprint (v : Json) : String :=
  Hash.fingerprint v.canonical.toUTF8.toList

/-- The fingerprint of the constants. -/
def digest : String := fingerprint json

end XorSpan.Parameters
