/-
Where the entries of a pool go. At each position the pivot is used up,
its copies are dropped, and every other entry stays or has a nonzero one
in its place. So after `k` positions the entries at work, the copies
dropped so far and the `k` pivots make up the pool, and there are as many
zero entries at work as the pool has (`Sweep.Conserved`).

At the end of a sweep only zero entries are left. That settles how many
copies have been dropped, without regard to the order of the pool or to
the target (`find_conserves`).
-/
import XorSpan.Proofs.Find

namespace XorSpan

variable {target : Bytes} {pool : List Bytes}

namespace Sweep

variable {bit pivot k : Nat} {s : Sweep}

-- ========================================================== elimination

/-- Elimination drops the pivot and its copies, and nothing else. That
is where entries go. -/
theorem length_filterMap_sift (hpivot : pivot.testBit bit = true)
    (words : List Nat) :
    (words.filterMap (sift bit pivot)).length + words.count pivot =
      words.length := by
  induction words with
  | nil => rfl
  | cons w words ih =>
    by_cases hw : w = pivot
    · rw [hw, List.filterMap_cons_none (sift_self hpivot), List.count_cons_self,
        List.length_cons, ← Nat.add_assoc, ih]
    · obtain ⟨u, hu, -⟩ := exists_sift bit hw
      rw [List.filterMap_cons_some hu, List.count_cons_of_ne hw,
        List.length_cons, List.length_cons, Nat.add_right_comm, ih]

/-- It neither makes zero entries nor drops them. They have no bits to
be eliminated by. -/
theorem count_zero_filterMap_sift (hpivot : pivot.testBit bit = true)
    (words : List Nat) :
    (words.filterMap (sift bit pivot)).count 0 = words.count 0 := by
  induction words with
  | nil => rfl
  | cons w words ih =>
    by_cases hw : w = pivot
    · rw [hw, List.filterMap_cons_none (sift_self hpivot), ih,
        List.count_cons_of_ne (ne_zero_of_testBit hpivot)]
    · obtain ⟨u, hu, hzero⟩ := exists_sift bit hw
      rw [List.filterMap_cons_some hu, List.count_cons, List.count_cons, ih]
      simp only [beq_iff_eq, hzero]

/-- Each record written adds a key at most, and leaves the table
listing its keys. -/
theorem faithful_writeAll (width : Nat) {records : Table Bytes Record}
    (entries : List Nat) (hrecords : records.Faithful) :
    (writeAll width pivot records entries).Faithful ∧
      (writeAll width pivot records entries).size ≤ records.size +
        entries.length := by
  induction entries generalizing records with
  | nil => exact ⟨hrecords, Nat.le_refl _⟩
  | cons w entries ih =>
    have hsize := records.size_insert_le (Bytes.ofWord width (w ^^^ pivot))
      (recordOf width pivot w)
    obtain ⟨hfaithful, hle⟩ :=
      ih (hrecords.insert (Bytes.ofWord width (w ^^^ pivot))
      (recordOf width pivot w))
    refine ⟨hfaithful, Nat.le_trans hle ?_⟩
    rw [List.length_cons]
    omega

-- ============================================================ invariant

/-- What becomes of the entries of a pool in the first `k` positions. -/
structure Conserved (pool : List Bytes) (k : Nat) (s : Sweep) : Prop where
  /-- An entry is at work, was dropped as a copy, or was a pivot. -/
  entries : s.working.length + s.duplicates + k = pool.length
  zeros : s.working.count 0 = pool.countP Bytes.isZero
  faithful : s.records.Faithful
  written : s.records.size ≤ s.recorded

theorem conserved_initial (target : Bytes) (pool : List Bytes) :
    Conserved pool 0 (initial target pool) where
  entries := List.length_map ..
  zeros := by
    have hzero : (fun v : Bytes => v.toWord == 0) = Bytes.isZero := by
      funext v
      rw [Bool.eq_iff_iff, beq_iff_eq, Bytes.isZero_iff]
    show (pool.map Bytes.toWord).count 0 = _
    rw [List.count_eq_countP, List.countP_map, ← hzero]
    rfl
  faithful := Table.faithful_empty
  written := Nat.le_refl _

/-- A position uses up one pivot. The copies of it that go are counted
as duplicates. -/
theorem Conserved.cleared (h : Conserved pool k s)
    (hfind : s.working.find? (·.testBit bit) = some pivot) :
    Conserved pool (k + 1) (s.cleared bit pivot) := by
  have hpivot : pivot.testBit bit = true := by simpa using List.find?_some hfind
  have hpresent : 0 < s.working.count pivot :=
    List.count_pos_iff.2 (List.mem_of_find?_eq_some hfind)
  have hlength := length_filterMap_sift hpivot s.working
  obtain ⟨hfaithful, hsize⟩ :=
    faithful_writeAll s.width (replaced bit pivot s.working) h.faithful
  refine ⟨?_, ?_, hfaithful, ?_⟩
  · have hentries := h.entries
    show (s.working.filterMap (sift bit pivot)).length +
      (s.duplicates + (s.working.count pivot - 1)) + (k + 1) = pool.length
    omega
  · exact (count_zero_filterMap_sift hpivot s.working).trans h.zeros
  · exact Nat.le_trans hsize (Nat.add_le_add_right h.written _)

/-- With no bits to go, only zero entries are at work. A word below
one is zero. -/
theorem Sound.count_zero (h : Sound target pool 0 s) :
    s.working.count 0 = s.working.length := by
  refine List.count_eq_length.2 ?_
  intro w hw
  exact (Nat.lt_one_iff.1 (h.working_lt w hw)).symm

end Sweep

namespace Solution

open Sweep

variable {s : Solution}

/-- A solution for a nonzero target is what a sweep has gathered. What
is known of sweeps is brought to solutions by this. -/
theorem exists_swept (h : (find target pool).outcome = .ok s)
    (hzero : target.isZero = false) :
    ∃ t, swept target pool = .ok t ∧ Sweep.Sound target pool 0 t ∧ s =
      gathered target pool t := by
  have hfinding := finding target pool
  rw [h] at hfinding
  have hacc := hfinding.accepted
  rw [(scripted_find hacc hzero).outcome_eq] at h
  have hreaches := reaches_swept hacc
  generalize swept target pool = r at h hreaches
  cases hreaches with
  | stuck => cases h
  | @swept t sound =>
    rw [Nat.sub_self] at sound
    cases h
    exact ⟨t, rfl, sound, rfl⟩

theorem conserved_swept {t : Sweep} (h : swept target pool = .ok t) :
    Conserved pool (8 * target.size) t :=
  keeps_foldlM (fun hs hfind => hs.cleared hfind)
    (conserved_initial target pool) h

/-- Every entry of the pool is zero, was a pivot, or was dropped as a
copy of one. -/
theorem duplicates_eq (h : (find target pool).outcome = .ok s)
    (hzero : target.isZero = false) :
    s.stats.duplicates + 8 * target.size + pool.countP Bytes.isZero =
      pool.length := by
  obtain ⟨t, ht, hsound, rfl⟩ := exists_swept h hzero
  have hconserved := conserved_swept ht
  have hentries := hconserved.entries
  rw [← hsound.count_zero, hconserved.zeros] at hentries
  show t.duplicates + 8 * target.size + pool.countP Bytes.isZero = pool.length
  omega

/-- What a sweep for a nonzero target has counted. The copies dropped
are what the pool has besides a pivot for each bit and its zero
entries, so neither the order of the pool nor the target has a say in
their number. The entries added are zero ones, those computed, and
pairs that cancel. There are no more keys than records were written. -/
theorem find_conserves (h : (find target pool).outcome = .ok s)
    (hzero : target.isZero = false) :
    s.stats.duplicates + 8 * target.size + pool.countP Bytes.isZero =
      pool.length ∧
    (∀ (other : Bytes) (reordered : List Bytes) (s' : Solution),
      other.size = target.size →
      other.isZero = false → reordered.Perm pool →
      (find other reordered).outcome = .ok s' →
        s'.stats.duplicates = s.stats.duplicates) ∧
    (∃ pairs, s.stats.contributions =
      s.stats.zeros + s.stats.computed + 2 * pairs) ∧
    s.records.Faithful ∧ s.records.size ≤ s.stats.recorded := by
  have hcopies := duplicates_eq h hzero
  refine ⟨hcopies, ?_, ?_, ?_⟩
  · intro other reordered s' hsize hother hperm h'
    have hcopies' := duplicates_eq h' hother
    rw [hsize, hperm.countP_eq, hperm.length_eq] at hcopies'
    omega
  · obtain ⟨t, -, -, rfl⟩ := exists_swept h hzero
    let appended := t.balance.appended.reverse
    let nonzero := (appended.filter (· != 0)).map (Bytes.ofWord target.size)
    obtain ⟨pairs, hpairs⟩ := Bytes.exists_length_oddOnes nonzero
    have hle : nonzero.length ≤ appended.length := by
      rw [List.length_map]
      exact List.length_filter_le ..
    refine ⟨pairs, ?_⟩
    show appended.length =
      appended.length - nonzero.length +
        (Bytes.oddOnes nonzero).length + 2 * pairs
    omega
  · obtain ⟨t, ht, -, rfl⟩ := exists_swept h hzero
    have hconserved := conserved_swept ht
    exact ⟨hconserved.faithful, hconserved.written⟩

/-- Over the unit values of one byte, a zero entry, and `3` twice. -/
theorem find_conserves_three : ∃ s,
    (find #[3] (#[0] :: #[3] :: #[3] :: Bytes.units 1)).outcome = .ok s ∧
      Bytes.isZero #[3] = false ∧ s.stats.duplicates = 2 ∧
      s.records.size ≤ s.stats.recorded := by
  have hacc : Accepted #[3] (#[0] :: #[3] :: #[3] :: Bytes.units 1) := by
    refine ⟨by decide, ?_, by decide +kernel⟩
    decide +kernel
  have hspans : Bytes.Spans 1 (#[0] :: #[3] :: #[3] :: Bytes.units 1) := by
    refine Bytes.spans_of_units hacc.sizes ?_
    intro u hu
    exact List.mem_cons_of_mem
      _ (List.mem_cons_of_mem _ (List.mem_cons_of_mem _ hu))
  obtain ⟨s, hs⟩ := exists_find_eq_ok hacc hspans
  have hzero : Bytes.isZero #[3] = false := by decide +kernel
  obtain ⟨hcopies, -, -, -, hkeys⟩ := find_conserves hs hzero
  have hcount :
      (#[0] :: #[3] :: #[3] :: Bytes.units 1).countP Bytes.isZero = 1 := by
    decide +kernel
  have hlength : (#[0] :: #[3] :: #[3] :: Bytes.units 1).length = 11 := by
    decide +kernel
  rw [hcount, hlength, show (#[3] : Bytes).size = 1 from rfl] at hcopies
  exact ⟨s, hs, hzero, by omega, hkeys⟩

end Solution

end XorSpan
