/-
JSON values as messages show them: `None`, `True` and `False` by these
words, strings quoted, lists in brackets and dictionaries in braces. A
string that is the whole value is shown bare.
-/
import XorSpan.Json.Basic
import XorSpan.Text.Quoted

namespace XorSpan.Json

mutual

def literal : Json → String
  | .null => "None"
  | .bool true => "True"
  | .bool false => "False"
  | .int n => toString n
  | .str s => Text.quoted s
  | .list items => "[" ++ ", ".intercalate (literals items) ++ "]"
  | .dict entries =>
      "\x7b" ++ ", ".intercalate (entryLiterals entries) ++ "\x7d"

def literals : List Json → List String
  | [] => []
  | item :: items => literal item :: literals items

def entryLiterals : List (String × Json) → List String
  | [] => []
  | (k, v) :: entries =>
      (Text.quoted k ++ ": " ++ literal v) :: entryLiterals entries

end

/-- The value in a message. -/
def shown : Json → String
  | .str s => s
  | v => v.literal

end XorSpan.Json
