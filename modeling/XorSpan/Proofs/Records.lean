/-
Records that explain themselves. A value is accounted for if it is a
nonzero member of the pool or has a record; a map of records is closed if
every record in it adds up to its key and has operands that are accounted
for.

What makes a closed map well founded is where the first bits stand: both
operands have their first bit at one position, and their XOR has it
further to the right. So a way down through the records moves to the left
and ends (`Closed.wellFounded`). Nothing of this is lost when a key is
written again with other operands, since the new record has the same
properties (`Closed.insert`).
-/
import XorSpan.Record
import XorSpan.Table
import XorSpan.Proofs.Tables
import XorSpan.Proofs.Words

namespace XorSpan

-- ============================================================== records

/-- What making a record checks. Nothing is changed in making it. -/
theorem Record.make_eq_ok_iff {left right result : Bytes} {r : Record} :
    Record.make left right result = .ok r ↔
      left.size = right.size ∧ right.size = result.size ∧
      left.xor right = result ∧
        r = ⟨left, right, result⟩ := by
  unfold Record.make
  split
  · next h =>
    constructor
    · intro h'
      cases h'
    · intro hall
      obtain ⟨hleft, hright, -⟩ := hall
      rcases h with h | h
      · exact absurd hleft h
      · exact absurd hright h
  · next h =>
    rw [not_or, not_not, not_not] at h
    split
    · next hsum =>
      constructor
      · intro h'
        cases h'
      · intro hall
        obtain ⟨-, -, hxor, -⟩ := hall
        exact absurd hxor hsum
    · next hsum =>
      rw [not_not] at hsum
      constructor
      · intro h'
        cases h'
        exact ⟨h.1, h.2, hsum, rfl⟩
      · intro hall
        obtain ⟨-, -, -, rfl⟩ := hall
        rfl

namespace Records

variable {pool : List Bytes} {records : Table Bytes Record}
    {v key : Bytes} {r : Record}

/-- A nonzero member of the pool, or a value that has a record. -/
def Accounted (pool : List Bytes) (records : Table Bytes Record)
    (v : Bytes) : Prop :=
  (v ∈ pool ∧ v.isZero = false) ∨ (records.get? v).isSome

/-- The record explains its key: the operands are different, have
their first bit at one position, further to the left than the key has
its own, and are accounted for themselves. -/
structure Explains (pool : List Bytes)
    (records : Table Bytes Record) (key : Bytes)
    (r : Record) : Prop where
  nonzero : key.isZero = false
  result : r.result = key
  left_size : r.left.size = key.size
  right_size : r.right.size = key.size
  sum : r.left.xor r.right = key
  distinct : r.left ≠ r.right
  first : ∃ i j, r.left.firstBit? = some i ∧ r.right.firstBit? = some i ∧
    key.firstBit? = some j ∧ i < j
  left : Accounted pool records r.left
  right : Accounted pool records r.right

/-- A record that explains its key could have been made. That is what
a consistent solution asks of its records. -/
theorem Explains.make (h : Explains pool records key r) :
    r.result = key ∧ Record.make r.left r.right r.result = .ok r := by
  refine ⟨h.result, Record.make_eq_ok_iff.2 ⟨?_, ?_, ?_, rfl⟩⟩
  · rw [h.left_size, h.right_size]
  · rw [h.right_size, h.result]
  · rw [h.sum, h.result]

/-- Every record explains its key. -/
def Closed (pool : List Bytes) (records : Table Bytes Record) : Prop :=
  ∀ key r, records.get? key = some r → Explains pool records key r

-- ============================================================== writing

theorem closed_empty : Closed pool .empty := by
  intro key r h
  rw [Table.get?_empty] at h
  cases h

/-- What is accounted for stays so when more is written. A record may
be replaced, but not taken away. -/
theorem Accounted.insert (h : Accounted pool records v)
    (k : Bytes) (r : Record) :
    Accounted pool (records.insert k r) v :=
  h.imp_right fun hv => (Table.isSome_get?_insert records k v r).2 (.inr hv)

theorem Explains.insert (h : Explains pool records key r) (k : Bytes)
    (other : Record) :
    Explains pool (records.insert k other) key r :=
  { h with left := h.left.insert k other, right := h.right.insert k other }

/-- Writing a record that explains its key keeps a map closed, whether
the key is new or had another record. -/
theorem Closed.insert (h : Closed pool records)
    (hr : Explains pool records key r) :
    Closed pool (records.insert key r) := by
  intro k q hk
  by_cases heq : key = k
  · subst heq
    rw [Table.get?_insert_self] at hk
    cases hk
    exact hr.insert _ _
  · rw [Table.get?_insert_of_ne _ _ heq] at hk
    exact (h k q hk).insert _ _

/-- In a closed map nothing that is accounted for is zero: the pool
members that count are not, and neither is a key. -/
theorem Closed.nonzero (h : Closed pool records)
    (hv : Accounted pool records v) :
    v.isZero = false := by
  rcases hv with hv | hv
  · exact hv.2
  · obtain ⟨r, hr⟩ := Option.isSome_iff_exists.1 hv
    exact (h v r hr).nonzero

-- ========================================================== well-foundedness

/-- `v` is an operand of the record under `key`. -/
def Operand (records : Table Bytes Record) (v key : Bytes) : Prop :=
  ∃ r, records.get? key = some r ∧ (v = r.left ∨ v = r.right)

/-- An operand has its first bit further to the left than its key.
That is the order in which the sweep makes them. -/
theorem Closed.first_lt (h : Closed pool records) (hv : Operand records v key) :
    ∃ i j, v.firstBit? = some i ∧ key.firstBit? = some j ∧ i < j := by
  obtain ⟨r, hr, hside⟩ := hv
  obtain ⟨i, j, hleft, hright, hkey, hlt⟩ := (h key r hr).first
  rcases hside with rfl | rfl
  · exact ⟨i, j, hleft, hkey, hlt⟩
  · exact ⟨i, j, hright, hkey, hlt⟩

/-- There is no endless way down through the records. First bits
cannot move to the left for ever. -/
theorem Closed.wellFounded (h : Closed pool records) :
    WellFounded (Operand records) := by
  have hbits :
      WellFounded (InvImage (· < ·) fun v : Bytes => v.firstBit?.getD 0) :=
    InvImage.wf _ Nat.lt_wfRel.wf
  refine Subrelation.wf ?_ hbits
  intro v key hv
  obtain ⟨i, j, hi, hj, hlt⟩ := h.first_lt hv
  simpa [InvImage, hi, hj] using hlt

-- ============================================================ expansion

/-- Expanding a value leaves a list of leaves: a nonzero member of the
pool is one, and so is whatever has no record; any other value is
replaced by the two operands of its record. -/
inductive Unfolds (pool : List Bytes) (records : Table Bytes Record) :
    Bytes → List Bytes → Prop
  | member {v : Bytes} (hv : v ∈ pool ∧ v.isZero = false) :
      Unfolds pool records v [v]
  | unrecorded {v : Bytes} (hv : records.get? v = none) :
      Unfolds pool records v [v]
  | derived {v : Bytes} {r : Record} {lefts rights : List Bytes}
      (hv : ¬(v ∈ pool ∧ v.isZero = false)) (hr : records.get? v = some r)
      (hleft : Unfolds pool records r.left lefts)
        (hright : Unfolds pool records r.right rights) :
      Unfolds pool records v (lefts ++ rights)

theorem Unfolds.unique {leaves others : List Bytes}
    (h : Unfolds pool records v leaves)
    (h' : Unfolds pool records v others) : leaves = others := by
  induction h generalizing others with
  | member hv =>
    cases h' with
    | member => rfl
    | unrecorded => rfl
    | derived hn => exact absurd hv hn
  | unrecorded hv =>
    cases h' with
    | member => rfl
    | unrecorded => rfl
    | derived _ hr => rw [hv] at hr; cases hr
  | derived hn hr _ _ ihleft ihright =>
    cases h' with
    | member hv => exact absurd hv hn
    | unrecorded hv => rw [hv] at hr; cases hr
    | derived _ hr' hleft hright =>
      rw [hr] at hr'
      cases hr'
      rw [ihleft hleft, ihright hright]

/-- In a closed map, what is accounted for can be expanded to the end,
and the end is in the pool. -/
theorem Closed.exists_unfolds (h : Closed pool records)
    (hv : Accounted pool records v) :
    ∃ leaves, Unfolds pool records v leaves ∧ ∀ u ∈ leaves,
    u ∈ pool ∧ u.isZero = false := by
  induction v using h.wellFounded.induction with
  | _ v ih =>
    by_cases hmem : v ∈ pool ∧ v.isZero = false
    · refine ⟨[v], .member hmem, fun u hu => ?_⟩
      rw [List.mem_singleton.1 hu]
      exact hmem
    · obtain ⟨r, hr⟩ := Option.isSome_iff_exists.1 (hv.resolve_left hmem)
      obtain ⟨lefts, hleft, hlefts⟩ :=
        ih r.left ⟨r, hr, .inl rfl⟩ (h v r hr).left
      obtain ⟨rights, hright, hrights⟩ :=
        ih r.right ⟨r, hr, .inr rfl⟩ (h v r hr).right
      refine ⟨lefts ++ rights, .derived hmem hr hleft hright, fun u hu => ?_⟩
      exact (List.mem_append.1 hu).elim (hlefts u) (hrights u)

end Records

end XorSpan
