/-
Data as callers hand them over, before anything is known about them: the
program's entry points take values of any kind and refuse the kinds they
have no use for, by name.

Bytes come in three kinds, of which two can be stored; text of hex digits
is not bytes.
-/
import XorSpan.Decimal.Shortest
import XorSpan.Json.Basic
import XorSpan.Text.Quoted

namespace XorSpan

inductive Datum where
  | null
  | bool (b : Bool)
  | int (n : Int)
  | float (x : Float)
  | str (s : String)
  | bytes (b : Bytes)
  /-- Bytes that their owner may still change. -/
  | buffer (b : Bytes)
  /-- A window on bytes held elsewhere. -/
  | view (b : Bytes)
  | list (items : List Datum)
  | tuple (items : List Datum)
  /-- Keys and values in order of insertion. -/
  | dict (entries : List (Datum × Datum))
  /-- Anything else, by the name of its kind. -/
  | other (kind : String)
deriving Inhabited

namespace Datum

def kind : Datum → String
  | .null => "NoneType"
  | .bool _ => "bool"
  | .int _ => "int"
  | .float _ => "float"
  | .str _ => "str"
  | .bytes _ => "bytes"
  | .buffer _ => "bytearray"
  | .view _ => "memoryview"
  | .list _ => "list"
  | .tuple _ => "tuple"
  | .dict _ => "dict"
  | .other kind => kind

/-- The bytes of a datum of one of the three kinds that have them. -/
def bytes? : Datum → Option Bytes
  | .bytes b | .buffer b | .view b => some b
  | _ => none

/-- Writes an entry into a dictionary under construction. A string key
that is already there keeps its place and gets the new value; keys of
other kinds are kept apart. -/
def putEntry (entries : List (Datum × Datum)) (key value : Datum) :
    List (Datum × Datum) :=
  match key, entries with
  | .str k, (.str j, w) :: rest =>
      if j = k then (.str j, value) :: rest
      else (.str j, w) :: putEntry rest (.str k) value
  | key, e :: rest => e :: putEntry rest key value
  | key, [] => [(key, value)]

/-- The dictionary that writing the entries one after the other makes. -/
def dictOf (entries : List (Datum × Datum)) : Datum :=
  .dict (entries.foldl (fun d e => putEntry d e.1 e.2) [])

mutual

def ofJson : Json → Datum
  | .null => .null
  | .bool b => .bool b
  | .int n => .int n
  | .str s => .str s
  | .list items => .list (ofItems items)
  | .dict entries => .dict (ofEntries entries)

def ofItems : List Json → List Datum
  | [] => []
  | item :: items => ofJson item :: ofItems items

def ofEntries : List (String × Json) → List (Datum × Datum)
  | [] => []
  | (k, v) :: entries => (.str k, ofJson v) :: ofEntries entries

end

-- =============================================================== literals

/-- Items between parentheses; a single one is followed by a comma. -/
def parenthesised : List String → String
  | [t] => "(" ++ t ++ ",)"
  | ts => "(" ++ ", ".intercalate ts ++ ")"

mutual

/-- The literal of a datum, as messages show it. -/
def literal : Datum → String
  | .null => "None"
  | .bool true => "True"
  | .bool false => "False"
  | .int n => toString n
  | .float x => Decimal.floatText x
  | .str s => Text.quoted s
  | .bytes b => Text.quotedBytes b
  | .buffer b => Text.quotedBuffer b
  | .view _ => "<memoryview>"
  | .list items => "[" ++ ", ".intercalate (literals items) ++ "]"
  | .tuple items => parenthesised (literals items)
  | .dict entries =>
      "\x7b" ++ ", ".intercalate (entryLiterals entries) ++ "\x7d"
  | .other kind => "<" ++ kind ++ ">"

def literals : List Datum → List String
  | [] => []
  | item :: items => literal item :: literals items

def entryLiterals : List (Datum × Datum) → List String
  | [] => []
  | (k, v) :: entries =>
      (literal k ++ ": " ++ literal v) :: entryLiterals entries

end

end Datum

end XorSpan
