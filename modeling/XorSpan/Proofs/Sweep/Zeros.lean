/-
A sweep without its zero entries. A zero entry has no bit: it is never
the pivot and never replaced, and where it is added it changes neither
the total nor the residual. So leaving the zero entries out, of what is
at work and of what has been added, is the same before a position and
after it (`advance_withoutZeros`), and two sweeps that differ in zero
entries alone do so to the end (`foldlM_withoutZeros`).

This is a simulation by a projection: the other entries go through the
same passes in the same order, and whatever the sweep keeps besides the
entries is literally the same.
-/
import XorSpan.Proofs.Sweep.Step

namespace XorSpan.Sweep

variable {bit pivot : Nat}

-- ======================================================== contribution

/-- The zero entries among those added left out. -/
def Balance.withoutZeros (b : Balance) : Balance :=
  { b with appended := b.appended.filter (· != 0) }

/-- Adding a zero entry, or not adding it, comes to the same, since
zeros among what has been added are left out as well. -/
theorem contribute_zero (b : Balance) :
    (contribute bit b 0).withoutZeros = b.withoutZeros := by
  unfold contribute
  split
  · simp [Balance.withoutZeros]
  · rfl

theorem contribute_withoutZeros (b : Balance) {w : Nat} (hw : w ≠ 0) :
    (contribute bit b w).withoutZeros = contribute bit b.withoutZeros w := by
  have hkeep : (w :: b.appended).filter (· != 0) =
      w :: b.appended.filter (· != 0) :=
    List.filter_cons_of_pos (by simpa using hw)
  have hresidual : b.withoutZeros.residual = b.residual := rfl
  unfold contribute
  rw [hresidual]
  split
  · unfold Balance.withoutZeros
    rw [hkeep]
  · rfl

theorem contributeAll_withoutZeros (b : Balance) (entries : List Nat) :
    (contributeAll bit b entries).withoutZeros =
      contributeAll bit b.withoutZeros (entries.filter (· != 0)) := by
  induction entries generalizing b with
  | nil => rfl
  | cons w entries ih =>
    rw [contributeAll_cons, ih]
    by_cases hw : w = 0
    · rw [hw, contribute_zero, List.filter_cons_of_neg (by simp)]
    · rw [contribute_withoutZeros b hw,
        List.filter_cons_of_pos (by simpa using hw), contributeAll_cons]

-- ========================================================= elimination

/-- The pivot is found among the other entries. Zero has no bits. -/
theorem find?_filter_ne_zero (entries : List Nat) :
    (entries.filter (· != 0)).find? (·.testBit bit) =
      entries.find? (·.testBit bit) := by
  induction entries with
  | nil => rfl
  | cons w entries ih =>
    by_cases hw : w = 0
    · rw [hw, List.filter_cons_of_neg (by simp), ih,
        List.find?_cons_of_neg (by simp)]
    · rw [List.filter_cons_of_pos (by simpa using hw), List.find?_cons,
        List.find?_cons, ih]

/-- Elimination leaves zero entries as they are and makes none. -/
theorem filter_ne_zero_sift (hpivot : pivot.testBit bit = true)
    (entries : List Nat) :
    (entries.filterMap (sift bit pivot)).filter (· != 0) =
      (entries.filter (· != 0)).filterMap (sift bit pivot) := by
  induction entries with
  | nil => rfl
  | cons w entries ih =>
    by_cases hw : w = pivot
    · subst hw
      rw [List.filterMap_cons_none (sift_self hpivot), ih,
        List.filter_cons_of_pos (by simpa using ne_zero_of_testBit hpivot),
        List.filterMap_cons_none (sift_self hpivot)]
    · obtain ⟨u, hu, hzero⟩ := exists_sift bit hw
      rw [List.filterMap_cons_some hu]
      by_cases hu0 : u = 0
      · rw [List.filter_cons_of_neg (by simpa using hu0),
          List.filter_cons_of_neg (by simpa using hzero.1 hu0), ih]
      · rw [List.filter_cons_of_pos (by simpa using hu0),
          List.filter_cons_of_pos (by simpa using mt hzero.2 hu0),
          List.filterMap_cons_some hu, ih]

theorem replaced_filter_ne_zero (entries : List Nat) :
    replaced bit pivot (entries.filter (· != 0)) =
      replaced bit pivot entries := by
  unfold replaced
  rw [List.filter_filter]
  refine List.filter_congr ?_
  intro w _
  cases hbit : w.testBit bit with
  | false => rfl
  | true => simp [ne_zero_of_testBit hbit]

-- ============================================================ positions

/-- The zero entries left out. -/
def withoutZeros (s : Sweep) : Sweep :=
  { s with
    working := s.working.filter (· != 0)
    balance := s.balance.withoutZeros }

theorem cleared_withoutZeros (s : Sweep) (hpivot : pivot.testBit bit = true) :
    s.withoutZeros.cleared bit pivot = (s.cleared bit pivot).withoutZeros := by
  have hcount : (s.working.filter (· != 0)).count pivot =
      s.working.count pivot :=
    List.count_filter (by simpa using ne_zero_of_testBit hpivot)
  unfold cleared withoutZeros
  simp only [Sweep.mk.injEq]
  refine ⟨trivial, ?_, ?_, ?_, ?_, ?_⟩
  · exact (filter_ne_zero_sift hpivot s.working).symm
  · exact (contributeAll_withoutZeros s.balance s.working).symm
  · rw [replaced_filter_ne_zero]
  · rw [replaced_filter_ne_zero]
  · rw [hcount]

/-- A position comes to the same with the zero entries and without.
Leaving them out commutes with it. -/
theorem advance_withoutZeros (s : Sweep) (position : Nat) :
    s.withoutZeros.advance position =
      (s.advance position).map withoutZeros := by
  have hfind :
      s.withoutZeros.working.find? (·.testBit (s.withoutZeros.bitOf position)) =
      s.working.find? (·.testBit (s.bitOf position)) :=
    find?_filter_ne_zero s.working
  unfold advance
  rw [hfind]
  cases hpivot : s.working.find? (·.testBit (s.bitOf position)) with
  | none => rfl
  | some pivot =>
    have hbit : pivot.testBit (s.bitOf position) = true := by
      simpa using List.find?_some hpivot
    exact congrArg Except.ok (cleared_withoutZeros s hbit)

/-- And so do positions one after the other. -/
theorem foldlM_withoutZeros (s : Sweep) (positions : List Nat) :
    positions.foldlM advance s.withoutZeros =
      (positions.foldlM advance s).map withoutZeros := by
  induction positions generalizing s with
  | nil => rfl
  | cons position positions ih =>
    rw [List.foldlM_cons, List.foldlM_cons, advance_withoutZeros]
    cases s.advance position with
    | error e => rfl
    | ok t => exact ih t

end XorSpan.Sweep
