/-
Tables that remember the order in which their keys first came. Writing
a key again replaces its value and leaves the key where it was, so a
table read out as a list shows every key once, in order of its first
appearance, with the last value written.

Look-ups go through the hash map alone; the array of keys is only there
for the order.
-/
import Std.Data.HashMap

namespace XorSpan

/-- A finite map with its keys in order of first insertion. -/
structure Table (κ ν : Type) [BEq κ] [Hashable κ] where
  keys : Array κ
  values : Std.HashMap κ ν

namespace Table

variable {κ ν μ : Type} [BEq κ] [Hashable κ]

def empty : Table κ ν := ⟨#[], ∅⟩

instance : Inhabited (Table κ ν) := ⟨empty⟩

def get? (t : Table κ ν) (k : κ) : Option ν := t.values[k]?

def contains (t : Table κ ν) (k : κ) : Bool := t.values.contains k

def size (t : Table κ ν) : Nat := t.keys.size

/-- Writes `v` under `k`; only a new key is added to the order. -/
def insert (t : Table κ ν) (k : κ) (v : ν) : Table κ ν :=
  ⟨if t.values.contains k then t.keys else t.keys.push k, t.values.insert k v⟩

/-- Writes the entries one after the other. -/
def ofList (entries : List (κ × ν)) : Table κ ν :=
  entries.foldl (fun t e => t.insert e.1 e.2) empty

/-- The entries in order. -/
def toList (t : Table κ ν) : List (κ × ν) :=
  t.keys.toList.filterMap fun k => (t.get? k).map fun v => (k, v)

/-- How often each key occurs in a list. -/
def tally (keys : List κ) : Table κ Nat :=
  keys.foldl (fun t k => t.insert k ((t.get? k).getD 0 + 1)) empty

-- ================================================================ views

@[simp] theorem get?_empty (k : κ) : (empty : Table κ ν).get? k = none := by
  simp [empty, get?]

theorem get?_insert [EquivBEq κ] [LawfulHashable κ] (t : Table κ ν)
    (k j : κ) (v : ν) :
    (t.insert k v).get? j = if k == j then some v else t.get? j := by
  simp [insert, get?, Std.HashMap.getElem?_insert]

end Table

end XorSpan
