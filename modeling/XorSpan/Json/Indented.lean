/-
JSON laid out for readers: two spaces to a level, one item or entry to a
line, entries in the order they were written. Empty lists and
dictionaries stay on their line.
-/
import XorSpan.Json.Canonical

namespace XorSpan.Json

/-- A new line at a level. -/
def newLine (level : Nat) : List Char := '\n' :: List.replicate (2 * level) ' '

/-- Texts on lines of their own at a level, a comma after all but the
last. -/
def onLines (level : Nat) : List (List Char) → List Char
  | [] => []
  | [t] => newLine level ++ t
  | t :: u :: rest => newLine level ++ t ++ ',' :: onLines level (u :: rest)

/-- A bracketed block that closes at `level`. -/
def block (left right : Char) (level : Nat) (texts : List (List Char)) :
    List Char :=
  if texts.isEmpty then [left, right]
  else left :: onLines (level + 1) texts ++ newLine level ++ [right]

mutual

/-- The characters of the layout of a value that starts at `level`. -/
def layout (level : Nat) : Json → List Char
  | .list items => block '[' ']' level (layoutItems (level + 1) items)
  | .dict entries =>
      block '\x7b' '\x7d' level (layoutEntries (level + 1) entries)
  | .null => chars .null
  | .bool b => chars (.bool b)
  | .int n => chars (.int n)
  | .str s => quote s

def layoutItems (level : Nat) : List Json → List (List Char)
  | [] => []
  | item :: items => layout level item :: layoutItems level items

def layoutEntries (level : Nat) : List (String × Json) → List (List Char)
  | [] => []
  | (k, v) :: entries =>
      (quote k ++ ':' :: ' ' :: layout level v) :: layoutEntries level entries

end

def indented (v : Json) : String := String.ofList (v.layout 0)

end XorSpan.Json
