/-
The run of a sweep. `Sound target pool m s` is what holds of the sweep
when `m` bits are still to go; it speaks of the words below `2 ^ m`.

- The working entries span exactly the sums of the pool that are that
  short, so the bits already passed are settled for good.
- The residual is that short as well, and together with the total it
  makes up the target.
- The records are closed, and all that is at work or has been added is
  accounted for, the zero word apart.

The step lemma (`Sound.cleared`) takes it from `m + 1` bits to `m`; the
run lemma (`reaches_foldlM`) says where a run over the first positions can
end: it has either passed them all, and then the pool has a sum for each
of these first bits, or it is stuck at the first position for which the
pool has none.
-/
import XorSpan.Proofs.Records
import XorSpan.Proofs.Sweep.Step

namespace XorSpan.Sweep

open Records

variable {target : Bytes} {pool : List Bytes} {s : Sweep} {m pivot : Nat}

-- ===================================================== written records

/-- What elimination writes explains itself: entry and pivot have the
bit as their highest, and their sum is a shorter word. -/
theorem explains_recordOf {width w : Nat} {records : Table Bytes Record}
    (hm : m < 8 * width)
    (hw : w < 2 ^ (m + 1)) (hwbit : w.testBit m = true)
    (hpivot : pivot < 2 ^ (m + 1))
    (hpbit : pivot.testBit m = true) (hne : w ≠ pivot)
    (hwacc : Accounted pool records (Bytes.ofWord width w))
    (hpacc : Accounted pool records (Bytes.ofWord width pivot)) :
    Explains pool records (Bytes.ofWord width (w ^^^ pivot))
      (recordOf width pivot w) := by
  have hpow : 2 ^ (m + 1) ≤ 2 ^ (8 * width) :=
    Nat.pow_le_pow_right (by decide) hm
  have hshort : w ^^^ pivot < 2 ^ m := xor_lt_of_testBit hw hpivot hwbit hpbit
  have hfit : w ^^^ pivot < 2 ^ (8 * width) :=
    Nat.lt_of_lt_of_le hshort
      (Nat.pow_le_pow_right (by decide) (Nat.le_of_lt hm))
  have hnonzero : (Bytes.ofWord width (w ^^^ pivot)).isZero = false := by
    rw [← Bool.not_eq_true, Bytes.isZero_ofWord hfit]
    exact fun h => hne (xor_eq_zero_iff.1 h)
  refine ⟨hnonzero, rfl, by simp [recordOf], by simp [recordOf],
    Bytes.ofWord_xor .., ?_, ?_, hwacc, hpacc⟩
  · exact fun h => hne ((Bytes.ofWord_inj (by omega) (by omega)).1 h)
  · obtain ⟨j, hj⟩ := Bytes.exists_firstBit? hnonzero
    refine ⟨8 * width - 1 - m, j,
      Bytes.firstBit?_ofWord hm (Nat.ge_two_pow_of_testBit hwbit) hw,
      Bytes.firstBit?_ofWord hm (Nat.ge_two_pow_of_testBit hpbit) hpivot, hj,
      ?_⟩
    obtain ⟨-, hle, -⟩ := Bytes.firstBit?_eq_some_iff.1 hj
    rw [Bytes.size_ofWord, Bytes.toWord_ofWord hfit] at hle
    have hexp : 8 * width - 1 - j < m :=
      (Nat.pow_lt_pow_iff_right (by decide)).1 (Nat.lt_of_le_of_lt hle hshort)
    omega

/-- Writing the records of a pass keeps the map closed, keeps
accounted what was, and accounts for every new value. -/
theorem closed_writeAll {width : Nat} {records : Table Bytes Record}
    {entries : List Nat}
    (hm : m < 8 * width) (hpivot : pivot < 2 ^ (m + 1))
    (hpbit : pivot.testBit m = true)
    (hpacc : Accounted pool records (Bytes.ofWord width pivot))
    (hentries : ∀ w ∈ entries, w < 2 ^ (m + 1) ∧
      w.testBit m = true ∧ w ≠ pivot ∧
      Accounted pool records (Bytes.ofWord width w))
    (hclosed : Closed pool records) :
    Closed pool (writeAll width pivot records entries) ∧
      (∀ v, Accounted pool records v →
        Accounted pool (writeAll width pivot records entries) v) ∧
      ∀ w ∈ entries, Accounted pool (writeAll width pivot records entries)
        (Bytes.ofWord width (w ^^^ pivot)) := by
  induction entries generalizing records with
  | nil => exact ⟨hclosed, fun _ h => h, fun w hw => by cases hw⟩
  | cons w entries ih =>
    obtain ⟨⟨hw, hwbit, hne, hwacc⟩, htail⟩ := List.forall_mem_cons.1 hentries
    have hexplains := explains_recordOf hm hw hwbit hpivot hpbit hne hwacc hpacc
    have hkept : ∀ u ∈ entries,
        u < 2 ^ (m + 1) ∧ u.testBit m = true ∧ u ≠ pivot ∧
        Accounted pool (records.insert (Bytes.ofWord width (w ^^^ pivot))
          (recordOf width pivot w)) (Bytes.ofWord width u) := by
      intro u hu
      obtain ⟨hlt, hbit, hne, hacc⟩ := htail u hu
      exact ⟨hlt, hbit, hne, hacc.insert _ _⟩
    obtain ⟨hclosed', hmono, hnew⟩ :=
      ih (hpacc.insert _ _) hkept (hclosed.insert hexplains)
    refine ⟨hclosed', fun v hv => hmono v (hv.insert _ _), fun u hu => ?_⟩
    rcases List.mem_cons.1 hu with rfl | hu
    · refine hmono _ (.inr ?_)
      rw [Table.get?_insert_self]
      rfl
    · exact hnew u hu

-- ============================================================ invariant

/-- What holds of a sweep towards `target` over `pool` with `m` bits
to go. -/
structure Sound (target : Bytes) (pool : List Bytes) (m : Nat)
    (s : Sweep) : Prop where
  width : s.width = target.size
  fits : m ≤ 8 * target.size
  /-- The working entries span what the pool spans below `2 ^ m`. -/
  spans : ∀ v, Span s.working v ↔ Span (pool.map Bytes.toWord) v ∧ v < 2 ^ m
  residual_lt : s.balance.residual < 2 ^ m
  balanced : s.balance.total ^^^ s.balance.residual = target.toWord
  total : xorSum s.balance.appended = s.balance.total
  appended_lt : ∀ a ∈ s.balance.appended, a < 2 ^ (8 * target.size)
  /-- No entry is ever made in the place of none. -/
  working_length : s.working.length ≤ pool.length
  appended_length : s.balance.appended.length ≤
    (8 * target.size - m) * pool.length
  closed : Closed pool s.records
  working_accounted : ∀ w ∈ s.working, w ≠ 0 →
    Accounted pool s.records (Bytes.ofWord target.size w)
  appended_accounted : ∀ a ∈ s.balance.appended, a ≠ 0 →
    Accounted pool s.records (Bytes.ofWord target.size a)

theorem Sound.working_lt (h : Sound target pool m s) :
    ∀ w ∈ s.working, w < 2 ^ m :=
  fun w hw => ((h.spans w).1 (.of_mem hw)).2

/-- Before the first position all bits are to go. -/
theorem sound_initial (hpool : ∀ v ∈ pool, v.size = target.size) :
    Sound target pool (8 * target.size) (initial target pool) where
  width := rfl
  fits := Nat.le_refl _
  spans v := by
    refine ⟨fun hv => ⟨hv, hv.lt fun w hw => ?_⟩, And.left⟩
    obtain ⟨u, hu, rfl⟩ := List.mem_map.1 hw
    exact hpool u hu ▸ u.toWord_lt
  residual_lt := target.toWord_lt
  balanced := Nat.zero_xor _
  total := rfl
  appended_lt a ha := by cases ha
  working_length := Nat.le_of_eq (List.length_map ..)
  appended_length := Nat.zero_le _
  closed := closed_empty
  working_accounted w hw hne := by
    obtain ⟨u, hu, rfl⟩ := List.mem_map.1 hw
    rw [Bytes.ofWord_toWord_of_size (hpool u hu)]
    refine .inl ⟨hu, ?_⟩
    rw [← Bool.not_eq_true, Bytes.isZero_iff]
    exact hne
  appended_accounted a ha := by cases ha

/-- A position that finds a pivot keeps the invariant, with one bit
less to go. -/
theorem Sound.cleared (h : Sound target pool (m + 1) s)
    (hmem : pivot ∈ s.working) (hbit : pivot.testBit m = true) :
    Sound target pool m (s.cleared m pivot) := by
  have hm : m < 8 * target.size := h.fits
  have hreplaced : ∀ w ∈ replaced m pivot s.working,
      w < 2 ^ (m + 1) ∧ w.testBit m = true ∧
      w ≠ pivot ∧ Accounted pool s.records (Bytes.ofWord target.size w) := by
    intro w hw
    obtain ⟨hw, hwbit, hne⟩ := mem_replaced.1 hw
    exact ⟨h.working_lt w hw, hwbit, hne,
      h.working_accounted w hw (ne_zero_of_testBit hwbit)⟩
  obtain ⟨hclosed, hmono, hnew⟩ :=
    closed_writeAll hm (h.working_lt pivot hmem) hbit
    (h.working_accounted pivot hmem (ne_zero_of_testBit hbit))
      hreplaced h.closed
  have hrecords : (s.cleared m pivot).records =
      writeAll target.size pivot s.records (replaced m pivot s.working) := by
    rw [← h.width]
    rfl
  have hpow : 2 ^ (m + 1) ≤ 2 ^ (8 * target.size) :=
    Nat.pow_le_pow_right (by decide) h.fits
  exact
    { width := h.width
      fits := Nat.le_of_lt hm
      spans := fun v => by
        rw [Sweep.cleared, span_sift hmem hbit, h.spans v]
        constructor
        · rintro ⟨⟨hv, hlt⟩, hclear⟩
          exact ⟨hv, lt_of_testBit_eq_false hlt hclear⟩
        · intro hall
          obtain ⟨hv, hlt⟩ := hall
          have hlt' : v < 2 ^ (m + 1) :=
            Nat.lt_of_lt_of_le hlt (Nat.pow_le_pow_right (by decide)
              (Nat.le_succ m))
          exact ⟨⟨hv, hlt'⟩, Nat.testBit_lt_two_pow hlt⟩
      residual_lt := lt_of_testBit_eq_false
        (residual_contributeAll_lt h.residual_lt h.working_lt)
        (testBit_residual_contributeAll _ hmem hbit)
      balanced := (total_xor_residual_contributeAll _ _).trans h.balanced
      total := xorSum_appended_contributeAll h.total _
      appended_lt := fun a ha => by
        rcases mem_appended_contributeAll ha with ha | ha
        · exact h.appended_lt a ha
        · exact Nat.lt_of_lt_of_le (h.working_lt a ha) hpow
      working_length := Nat.le_trans
        (List.length_filterMap_le _ _) h.working_length
      appended_length := by
        have hpass : (contributeAll m s.balance s.working).appended.length ≤
            s.balance.appended.length + s.working.length :=
          length_appended_contributeAll_le _ _
        have hpositions : 8 * target.size - m =
            (8 * target.size - (m + 1)) + 1 := by omega
        rw [hpositions, Nat.succ_mul]
        exact Nat.le_trans hpass (Nat.add_le_add h.appended_length
          h.working_length)
      closed := hrecords ▸ hclosed
      working_accounted := fun w hw hne => by
        rw [hrecords]
        rcases mem_sift.1 hw with ⟨hw, -⟩ | ⟨u, hu, hubit, hne', rfl⟩
        · exact hmono _ (h.working_accounted w hw hne)
        · exact hnew u (mem_replaced.2 ⟨hu, hubit, hne'⟩)
      appended_accounted := fun a ha hne => by
        rw [hrecords]
        rcases mem_appended_contributeAll ha with ha | ha
        · exact hmono _ (h.appended_accounted a ha hne)
        · exact hmono _ (h.working_accounted a ha hne) }

-- ================================================================= pivots

/-- A position has a pivot exactly when the pool has a sum with its
first bit there. -/
theorem Sound.exists_testBit_iff (h : Sound target pool (m + 1) s)
    (hpool : ∀ v ∈ pool, v.size = target.size) :
    (∃ w ∈ s.working, w.testBit m = true) ↔
      Bytes.Leads target.size pool (8 * target.size - 1 - m) := by
  have hm : m < 8 * target.size := h.fits
  rw [Bytes.leads_iff hpool,
    show 8 * target.size - 1 - (8 * target.size - 1 - m) = m by omega,
    show 8 * target.size - (8 * target.size - 1 - m) = m + 1 by omega]
  constructor
  · intro hex
    obtain ⟨w, hw, hbit⟩ := hex
    obtain ⟨hspan, hlt⟩ := (h.spans w).1 (.of_mem hw)
    exact ⟨by omega, w, hspan, Nat.ge_two_pow_of_testBit hbit, hlt⟩
  · intro hex
    obtain ⟨-, v, hspan, hle, hlt⟩ := hex
    by_contra hnone
    have hclear : ∀ w ∈ s.working, w.testBit m = false := by
      intro w hw
      cases hbit : w.testBit m with
      | false => rfl
      | true => exact absurd ⟨w, hw, hbit⟩ hnone
    have hv : Span s.working v := (h.spans v).2 ⟨hspan, hlt⟩
    have hbit := testBit_of_lead hle hlt
    rw [hv.testBit_eq_false hclear] at hbit
    cases hbit

-- ================================================================== runs

/-- Where a run over the positions before `k` can end. -/
inductive Reaches (target : Bytes) (pool : List Bytes) (k : Nat) :
    Except Fault Sweep → Prop
  /-- Past them all. -/
  | swept {s : Sweep} (sound : Sound target pool (8 * target.size - k) s)
      (leads : ∀ i < k, Bytes.Leads target.size pool i) : Reaches
        target pool k (.ok s)
  /-- At the first position for which the pool has no sum. -/
  | stuck {i : Nat} (lt : i < k)
      (before : ∀ j < i, Bytes.Leads target.size pool j)
      (none : ¬Bytes.Leads target.size pool i) :
      Reaches target pool k (.error (.unsolvable i))

theorem reaches_foldlM (hpool : ∀ v ∈ pool, v.size = target.size) {k : Nat}
    (hk : k ≤ 8 * target.size) :
    Reaches target pool k ((List.range k).foldlM advance
      (initial target pool)) := by
  induction k with
  | zero =>
    exact .swept (sound_initial hpool) fun i hi => absurd hi (Nat.not_lt_zero i)
  | succ k ih =>
    rw [List.range_succ, List.foldlM_append]
    generalize (List.range k).foldlM advance (initial target pool) = r at ih
    cases ih (Nat.le_of_succ_le hk) with
    | stuck lt before none => exact .stuck (Nat.lt_succ_of_lt lt) before none
    | @swept s sound leads =>
      -- the bit that is next to go, counted from the right
      obtain ⟨m, hm⟩ : ∃ m, 8 * target.size - k = m + 1 :=
        ⟨8 * target.size - k - 1, by omega⟩
      have hbit : s.bitOf k = m := by
        rw [bitOf, sound.width]
        omega
      have hposition : 8 * target.size - 1 - m = k := by omega
      rw [hm] at sound
      have hiff := sound.exists_testBit_iff hpool
      rw [hposition] at hiff
      show Reaches target pool (k + 1) ((advance s k) >>= pure)
      rw [bind_pure, advance, hbit]
      cases hfind : s.working.find? (·.testBit m) with
      | none =>
        refine .stuck (Nat.lt_succ_self k) leads fun hlead => ?_
        obtain ⟨w, hw, hset⟩ := hiff.2 hlead
        exact absurd hset (by simpa using List.find?_eq_none.1 hfind w hw)
      | some pivot =>
        have hmem := List.mem_of_find?_eq_some hfind
        have hset : pivot.testBit m = true := by
          simpa using List.find?_some hfind
        refine .swept ?_ fun i hi => ?_
        · rw [show 8 * target.size - (k + 1) = m by omega]
          exact sound.cleared hmem hset
        · rcases Nat.lt_succ_iff_lt_or_eq.1 hi with hi | rfl
          · exact leads i hi
          · exact hiff.1 ⟨pivot, hmem, hset⟩

end XorSpan.Sweep
