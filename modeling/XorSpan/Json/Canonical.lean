/-
The canonical text of a JSON value, the one that is hashed: no spaces,
dictionary entries sorted by code point of their keys, characters beyond
ASCII as they are. Only quotes, backslashes and control characters are
escaped, the common ones by a letter, the others by number.
-/
import XorSpan.Json.Basic

namespace XorSpan.Json

/-- One character inside a JSON string. -/
def escapeChar (c : Char) : List Char :=
  if c = '"' ∨ c = '\\' then ['\\', c]
  else if c = '\n' then ['\\', 'n']
  else if c = '\r' then ['\\', 'r']
  else if c = '\t' then ['\\', 't']
  else if c.toNat = 8 then ['\\', 'b']
  else if c.toNat = 12 then ['\\', 'f']
  else if c.toNat < 0x20 then
    ['\\', 'u', '0', '0', Nat.digitChar (c.toNat / 16),
      Nat.digitChar (c.toNat % 16)]
  else [c]

def quote (s : String) : List Char :=
  '"' :: s.toList.flatMap escapeChar ++ ['"']

/-- Texts with a comma between each two. -/
def commas : List (List Char) → List Char
  | [] => []
  | [t] => t
  | t :: u :: rest => t ++ ',' :: commas (u :: rest)

/-- Entries in order of their keys. -/
def sortEntries {α : Type} (entries : List (String × α)) : List (String × α) :=
  entries.mergeSort fun a b => decide (a.1 ≤ b.1)

mutual

/-- The characters of the canonical text. -/
def chars : Json → List Char
  | .null => ['n', 'u', 'l', 'l']
  | .bool true => ['t', 'r', 'u', 'e']
  | .bool false => ['f', 'a', 'l', 's', 'e']
  | .int n => (toString n).toList
  | .str s => quote s
  | .list items => '[' :: commas (itemChars items) ++ [']']
  | .dict entries =>
      '\x7b' :: commas ((sortEntries (entryChars entries)).map (·.2)) ++
        ['\x7d']

def itemChars : List Json → List (List Char)
  | [] => []
  | item :: items => chars item :: itemChars items

/-- Each key with the text of its entry. -/
def entryChars : List (String × Json) → List (String × List Char)
  | [] => []
  | (k, v) :: entries => (k, quote k ++ ':' :: chars v) :: entryChars entries

end

def canonical (v : Json) : String := String.ofList v.chars

end XorSpan.Json
