/-
The values that receipts store: JSON without fractions. Dictionaries
keep the order in which their keys were first written.

Two values are `same` when they agree as data: the order of dictionary
entries does not count, and a truth value counts as the number 0 or 1.
This is coarser than agreement of their canonical texts
(`Json/Canonical.lean`), which tells `true` from `1`.
-/

namespace XorSpan

inductive Json where
  | null
  | bool (b : Bool)
  | int (n : Int)
  | str (s : String)
  | list (items : List Json)
  | dict (entries : List (String × Json))
deriving Inhabited, Repr

namespace Json

/-- Writes `v` under `k`: in place if the key is there, else at the
end. -/
def put (k : String) (v : Json) : List (String × Json) → List (String × Json)
  | [] => [(k, v)]
  | (j, w) :: rest => if j = k then (j, v) :: rest else (j, w) :: put k v rest

/-- The number that a value counts as in comparisons. -/
def number? : Json → Option Int
  | .bool b => some (if b then 1 else 0)
  | .int n => some n
  | _ => none

mutual

/-- Agreement as data. -/
def same : Json → Json → Bool
  | .null, .null => true
  | .str a, .str b => a == b
  | .list as, .list bs => sameItems as bs
  | .dict as, .dict bs => as.length == bs.length && sameEntries as bs
  | a, b =>
      match a.number?, b.number? with
      | some m, some n => m == n
      | _, _ => false

/-- Agreement item by item. -/
def sameItems : List Json → List Json → Bool
  | [], [] => true
  | a :: as, b :: bs => same a b && sameItems as bs
  | _, _ => false

/-- Every entry has a partner under its key among `bs`. -/
def sameEntries : List (String × Json) → List (String × Json) → Bool
  | [], _ => true
  | (k, a) :: as, bs =>
      (match bs.lookup k with
        | some b => same a b
        | none => false) && sameEntries as bs

end

end Json

end XorSpan
