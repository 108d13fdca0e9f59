/-
Tables as finite maps with an order. A table that was built by writing
into an empty one lists each of its keys once (`Table.Faithful`), so what
is read out of it as a list is what look-ups find.

A tally counts: its keys are the items of a list without repetitions, in
order of first appearance, and under each stands how often it occurs.
-/
import XorSpan.Table
import Mathlib.Data.List.Induction
import Mathlib.Data.List.Nodup

namespace XorSpan.Table

variable {κ ν : Type} [BEq κ] [LawfulBEq κ] [Hashable κ]

-- ======================================================= order and look-up

/-- The order lists exactly the keys that look-ups find, each once. -/
structure Faithful (t : Table κ ν) : Prop where
  nodup : t.keys.toList.Nodup
  mem_keys : ∀ k, k ∈ t.keys.toList ↔ (t.get? k).isSome

theorem faithful_empty : (empty : Table κ ν).Faithful where
  nodup := by simp [empty]
  mem_keys k := by simp [empty, get?]

theorem get?_insert_self (t : Table κ ν) (k : κ) (v : ν) :
    (t.insert k v).get? k = some v := by
  simp [get?_insert]

theorem get?_insert_of_ne (t : Table κ ν) {k j : κ} (v : ν) (h : k ≠ j) :
    (t.insert k v).get? j = t.get? j := by
  rw [get?_insert, if_neg (by simpa using h)]

/-- A written key stays a key. So a table that is only written to
loses nothing. -/
theorem isSome_get?_insert (t : Table κ ν) (k j : κ) (v : ν) :
    ((t.insert k v).get? j).isSome ↔ k = j ∨ (t.get? j).isSome := by
  by_cases h : k = j
  · subst h
    simp [get?_insert_self]
  · simp [get?_insert_of_ne t v h, h]

/-- A key stays where it first stood, and a new one goes to the end. -/
theorem keys_insert (t : Table κ ν) (k : κ) (v : ν) :
    (t.insert k v).keys.toList =
      if (t.get? k).isSome then t.keys.toList else t.keys.toList ++ [k] := by
  have h : t.values.contains k = (t.get? k).isSome := by
    simp [get?, Std.HashMap.isSome_getElem?_eq_contains]
  simp only [insert, h]
  split <;> simp

omit [LawfulBEq κ] in
/-- Writing adds a key at most. Writing under a key that is there adds
none. -/
theorem size_insert_le (t : Table κ ν) (k : κ) (v : ν) :
    (t.insert k v).size ≤ t.size + 1 := by
  unfold insert size
  split
  · exact Nat.le_succ _
  · exact Nat.le_of_eq (Array.size_push ..)

/-- Writing keeps a table faithful: an old key keeps its place, a new
one comes last. -/
theorem Faithful.insert {t : Table κ ν} (ht : t.Faithful) (k : κ) (v : ν) :
    (t.insert k v).Faithful := by
  by_cases h : (t.get? k).isSome
  · have hkeys : (t.insert k v).keys.toList = t.keys.toList := by
      rw [keys_insert, if_pos h]
    refine ⟨hkeys ▸ ht.nodup, fun j => ?_⟩
    rw [hkeys, isSome_get?_insert, ht.mem_keys]
    refine ⟨.inr, ?_⟩
    rintro (rfl | hj)
    · exact h
    · exact hj
  · have hkeys : (t.insert k v).keys.toList = t.keys.toList ++ [k] := by
      rw [keys_insert, if_neg h]
    have hnew : k ∉ t.keys.toList := fun hk => h ((ht.mem_keys k).1 hk)
    refine ⟨?_, fun j => ?_⟩
    · rw [hkeys]
      exact List.nodup_append_comm.1 (List.nodup_cons.2 ⟨hnew, ht.nodup⟩)
    · rw [hkeys, isSome_get?_insert, List.mem_append, List.mem_singleton,
        ht.mem_keys, or_comm, eq_comm]

-- ================================================================ tallies

omit [LawfulBEq κ] in
theorem tally_concat (items : List κ) (k : κ) :
    tally (items ++ [k]) = (tally items).insert k
      (((tally items).get? k).getD 0 + 1) := by
  simp [tally]

theorem faithful_tally (items : List κ) : (tally items).Faithful := by
  induction items using List.reverseRecOn with
  | nil => exact faithful_empty
  | append_singleton items j ih =>
    rw [tally_concat]
    exact ih.insert _ _

/-- A tally holds how often an item occurs, if it occurs. Counting one
by one comes to counting. -/
theorem get?_tally (items : List κ) (k : κ) :
    (tally items).get? k =
      if k ∈ items then some (items.count k) else none := by
  induction items using List.reverseRecOn with
  | nil => simp [tally]
  | append_singleton items j ih =>
    rw [tally_concat]
    by_cases h : j = k
    · subst h
      rw [get?_insert_self, ih]
      by_cases hj : j ∈ items
      · simp [hj]
      · simp [hj, List.count_eq_zero_of_not_mem hj]
    · rw [get?_insert_of_ne _ _ h, ih]
      have hcount : [j].count k = 0 := by
        rw [List.count_eq_zero]
        simpa using fun hk : k = j => h hk.symm
      simp [Ne.symm h, hcount]

omit [Hashable κ] in
/-- One more item is a repeat or comes last. -/
theorem eraseDups_concat (items : List κ) (j : κ) :
    (items ++ [j]).eraseDups =
      if j ∈ items then items.eraseDups else items.eraseDups ++ [j] := by
  rw [List.eraseDups_append]
  by_cases hj : j ∈ items
  · have hgone : [j].removeAll items = [] := by simp [List.removeAll, hj]
    rw [if_pos hj, hgone, List.eraseDups_nil, List.append_nil]
  · have hstays : [j].removeAll items = [j] := by simp [List.removeAll, hj]
    rw [if_neg hj, hstays, List.eraseDups_cons, List.filter_nil,
      List.eraseDups_nil]

/-- The keys of a tally, in order of first appearance. That is the
order in which values are given back. -/
theorem keys_tally (items : List κ) :
    (tally items).keys.toList = items.eraseDups := by
  induction items using List.reverseRecOn with
  | nil => rfl
  | append_singleton items j ih =>
    rw [tally_concat, keys_insert, get?_tally, ih, eraseDups_concat]
    by_cases hj : j ∈ items
    · simp [hj]
    · simp [hj]

theorem nodup_eraseDups (items : List κ) : items.eraseDups.Nodup :=
  keys_tally items ▸ (faithful_tally items).nodup

/-- A tally has every item once, in the order of first occurrence,
with its number of occurrences. -/
theorem toList_tally (items : List κ) :
    (tally items).toList = items.eraseDups.map fun k => (k, items.count k) := by
  rw [toList, keys_tally, ← List.filterMap_eq_map]
  refine List.filterMap_congr fun k hk => ?_
  rw [get?_tally, if_pos (List.mem_eraseDups.1 hk)]
  rfl

end XorSpan.Table
