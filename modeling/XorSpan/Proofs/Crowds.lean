/-
Pools that open with the unit values, and how many values are computed
over them.

Over such a pool the pivots are the unit words, in the order of their
bits, whatever stands behind them and whatever the target is. So the
entries behind them lose their bits one at a time from the left: with `m`
bits to go, an entry is down to its lowest `m` bits, and it is dropped
when it has become a copy of the pivot (`tail?`). A position adds the
entries that do not have its bit, so how often a word is added can be
counted entry by entry (`count_appended_foldlM`), and a value is computed
if the count is odd (`mem_computed_units_iff`).

An entry whose first bit is followed by a gap is added as it stands, and
what is left of it behind the gap is added again. So there are pools over
which nearly twice as many values are computed as they have entries
(`two_mul_le_length_computed`). With enough of them, the pool has a frame
and the computed values have none: the pool has been checked, a
combination has been found, and yet there is no answer (`solve_crowd`).
-/
import Mathlib.Algebra.BigOperators.Intervals
import XorSpan.Proofs.Answers
import XorSpan.Proofs.Conservation
import XorSpan.Proofs.Positions

namespace XorSpan

namespace Sweep

variable {m n v w : Nat} {rest : List Nat} {s : Sweep}

-- ========================================================= unit words

/-- The lowest `m` words with a single bit, in the order of their
bits. -/
def powers (m : Nat) : List Nat := (List.range m).map (2 ^ ·)

/-- Of the powers the next one is the last. At its position it is the
pivot, and what stands before it stays. -/
theorem powers_succ (m : Nat) : powers (m + 1) = powers m ++ [2 ^ m] := by
  rw [powers, List.range_succ, List.map_append]
  rfl

theorem length_powers (m : Nat) : (powers m).length = m := by
  rw [powers, List.length_map, List.length_range]

/-- The powers before the last one do not have its bit. So none of
them is changed by elimination with the last. -/
theorem testBit_of_mem_powers (hw : w ∈ powers m) : w.testBit m = false := by
  obtain ⟨k, hk, rfl⟩ := List.mem_map.1 hw
  rw [Nat.testBit_two_pow_of_ne (Nat.ne_of_lt (List.mem_range.1 hk))]

/-- A word that is no power is not among them. -/
theorem count_powers (hpow : ∀ k, v ≠ 2 ^ k) : (powers m).count v = 0 := by
  rw [List.count_eq_zero]
  intro hv
  obtain ⟨k, -, rfl⟩ := List.mem_map.1 hv
  exact hpow k rfl

/-- Where the powers stand first, the last of them is the pivot for
its bit, in the place of that number. -/
theorem pivotAt_powers (m : Nat) (rest : List Nat) :
    PivotAt m (powers (m + 1) ++ rest) m (2 ^ m) where
  entry := by
    rw [powers_succ, List.append_assoc,
      List.getElem?_append_right (Nat.le_of_eq (length_powers m)),
      length_powers, Nat.sub_self]
    rfl
  set := Nat.testBit_two_pow_self
  before w hw := by
    rw [powers_succ, List.append_assoc,
      List.take_left' (length_powers m)] at hw
    exact testBit_of_mem_powers hw

/-- And so it is the first entry with its bit, which is what a
position looks for. -/
theorem find?_powers (m : Nat) (rest : List Nat) :
    (powers (m + 1) ++ rest).find? (·.testBit m) = some (2 ^ m) := by
  refine List.find?_eq_some_iff_append.2
    ⟨Nat.testBit_two_pow_self, powers m, rest, ?_, fun w hw => ?_⟩
  · rw [powers_succ, List.append_assoc]
    rfl
  · rw [testBit_of_mem_powers hw]
    rfl

-- =============================================== what is left of a word

/-- What is left of a word behind the powers with `m` bits to go: its
lowest bits, unless it was dropped before, as a copy of a power. -/
def tail? (m w : Nat) : Option Nat :=
  if w ≠ 0 ∧ w % 2 ^ m = 0 then none else some (w % 2 ^ m)

/-- A word that fits is there as a whole. That is so of all entries
before the first position, since they are as wide as the target. -/
theorem tail?_of_lt (hw : w < 2 ^ m) : tail? m w = some w := by
  rw [tail?, Nat.mod_eq_of_lt hw]
  exact if_neg fun h => h.1 h.2

/-- A bit that is set stands above the lower ones. So the low bits of
a word are given bit by bit. -/
theorem mod_two_pow_succ_of_testBit (h : w.testBit m = true) :
    w % 2 ^ (m + 1) = w % 2 ^ m ^^^ 2 ^ m := by
  apply Nat.eq_of_testBit_eq
  intro k
  rw [Nat.testBit_xor, Nat.testBit_mod_two_pow, Nat.testBit_mod_two_pow,
    Nat.testBit_two_pow]
  rcases Nat.lt_trichotomy k m with hk | rfl | hk
  · simp [hk, Nat.lt_succ_of_lt hk, Nat.ne_of_gt hk]
  · simp [h]
  · simp [Nat.not_lt.2 hk, Nat.not_lt.2 (Nat.le_of_lt hk), Nat.ne_of_lt hk]

/-- And a bit that is clear makes no difference. -/
theorem mod_two_pow_succ_of_clear (h : w.testBit m = false) :
    w % 2 ^ (m + 1) = w % 2 ^ m := by
  apply Nat.eq_of_testBit_eq
  intro k
  rw [Nat.testBit_mod_two_pow, Nat.testBit_mod_two_pow]
  rcases Nat.lt_trichotomy k m with hk | rfl | hk
  · simp [hk, Nat.lt_succ_of_lt hk]
  · simp [h]
  · simp [Nat.not_lt.2 hk, Nat.not_lt.2 (Nat.le_of_lt hk)]

/-- Elimination with the power takes one bit off what is left. If
nothing else is left, it was a copy of the power, and it goes. -/
theorem tail?_bind_sift (m w : Nat) :
    (tail? (m + 1) w).bind (sift m (2 ^ m)) = tail? m w := by
  have hlow : (w % 2 ^ m).testBit m = false :=
    Nat.testBit_lt_two_pow (Nat.mod_lt w (Nat.two_pow_pos m))
  cases hbit : w.testBit m with
  | false =>
    unfold tail?
    rw [mod_two_pow_succ_of_clear hbit]
    by_cases hgone : w ≠ 0 ∧ w % 2 ^ m = 0
    · rw [if_pos hgone, Option.bind_none]
    · rw [if_neg hgone, Option.bind_some, sift, hlow]
      rfl
  | true =>
    have hset : (w % 2 ^ (m + 1)).testBit m = true := by
      rw [Nat.testBit_mod_two_pow, hbit]
      simp
    have hthere : tail? (m + 1) w = some (w % 2 ^ (m + 1)) :=
      if_neg fun h => ne_zero_of_testBit hset h.2
    rw [hthere, Option.bind_some, sift, hset, if_pos rfl, tail?]
    -- the pivot itself is what has no bits left
    by_cases hzero : w % 2 ^ m = 0
    · have hpivot : w % 2 ^ (m + 1) = 2 ^ m := by
        rw [mod_two_pow_succ_of_testBit hbit, hzero, Nat.zero_xor]
      rw [if_pos hpivot, if_pos ⟨ne_zero_of_testBit hbit, hzero⟩]
    · have hother : w % 2 ^ (m + 1) ≠ 2 ^ m := by
        intro h
        rw [mod_two_pow_succ_of_testBit hbit] at h
        rw [← xor_cancel_right (w % 2 ^ m) (2 ^ m), h, Nat.xor_self] at hzero
        exact hzero rfl
      rw [if_neg hother, if_neg fun h => hzero h.2,
        mod_two_pow_succ_of_testBit hbit, xor_cancel_right]

/-- So it does of all that is at work: one power and one bit less.
What is at work has the same form before a position and after it. -/
theorem filterMap_sift_powers (m : Nat) (rest : List Nat) :
    (powers (m + 1) ++ rest.filterMap (tail? (m + 1))).filterMap
        (sift m (2 ^ m)) =
      powers m ++ rest.filterMap (tail? m) := by
  have hpowers : (powers (m + 1)).filterMap (sift m (2 ^ m)) = powers m := by
    have hkept : (powers m).filterMap (sift m (2 ^ m)) = powers m := by
      rw [List.filterMap_congr fun w hw =>
        (by simp [sift, testBit_of_mem_powers hw] : sift m (2 ^ m) w = some w)]
      exact List.filterMap_some
    rw [powers_succ, List.filterMap_append, hkept,
      List.filterMap_cons_none (sift_self Nat.testBit_two_pow_self),
      List.filterMap_nil, List.append_nil]
  rw [List.filterMap_append, hpowers, List.filterMap_filterMap]
  exact congrArg _ (List.filterMap_congr fun w _ => tail?_bind_sift m w)

-- ========================================================== what is added

/-- A position adds the words behind the powers that do not have its
bit, once each, whether or not the residual has the bit. -/
theorem count_appended_powers (b : Balance) (rest : List Nat)
    (hpow : ∀ k, v ≠ 2 ^ k) :
    (contributeAll m b (powers (m + 1) ++ rest)).appended.count v =
      b.appended.count v + if v.testBit m then 0 else rest.count v := by
  have hdrop : (powers (m + 1) ++ rest).drop (m + 1) = rest :=
    List.drop_left' (length_powers (m + 1))
  have hfilter (words : List Nat) :
      (words.filter fun w => !w.testBit m).count v =
        if v.testBit m then 0 else words.count v := by
    cases hv : v.testBit m with
    | true => simp [List.count_eq_zero, hv]
    | false => exact List.count_filter (by rw [hv]; rfl)
  have hall : (powers (m + 1) ++ rest).count v = rest.count v := by
    rw [List.count_append, count_powers hpow, Nat.zero_add]
  rw [(pivotAt_powers m rest).appended_contributeAll, List.count_append,
    List.count_reverse, hdrop, Nat.add_comm]
  congr 1
  split
  · rw [List.count_cons_of_ne (hpow m).symm, hfilter]
  · rw [hfilter, hall]

/-- How often a word that is not zero stands behind the powers. It
does so for each entry that ends in it, as such entries cannot have
been dropped. -/
theorem count_filterMap_tail? (m : Nat) (rest : List Nat) (hv : v ≠ 0) :
    (rest.filterMap (tail? m)).count v = rest.countP (· % 2 ^ m = v) := by
  induction rest with
  | nil => rfl
  | cons w rest ih =>
    rw [List.countP_cons, ← ih]
    by_cases hgone : w ≠ 0 ∧ w % 2 ^ m = 0
    · have hnone : tail? m w = none := if_pos hgone
      have hne : w % 2 ^ m ≠ v := fun h => hv (h.symm.trans hgone.2)
      rw [List.filterMap_cons_none hnone]
      simp [hne]
    · have hsome : tail? m w = some (w % 2 ^ m) := if_neg hgone
      rw [List.filterMap_cons_some hsome, List.count_cons]
      simp

-- ============================================================ invariant

/-- How often a word behind the powers is added for the bits from
`low` up to `high`: for each bit that it does not have, as often as it
is what an entry has left. -/
def additions (rest : List Nat) (low high v : Nat) : Nat :=
  ∑ m ∈ Finset.Ico low high,
    if v.testBit m then 0 else rest.countP (· % 2 ^ (m + 1) = v)

/-- Where a sweep over the powers and `rest` stands after `i`
positions: so many powers are used up, and the other entries are down
to what is left of them. -/
structure Opened (n : Nat) (rest : List Nat) (i : Nat) (s : Sweep) :
    Prop where
  width : s.width = n
  working : s.working =
    powers (8 * n - i) ++ rest.filterMap (tail? (8 * n - i))
  appended : ∀ v, v ≠ 0 → (∀ k, v ≠ 2 ^ k) → s.balance.appended.count v =
    additions rest (8 * n - i) (8 * n) v

/-- Before the first position nothing has been taken off an entry, and
no power is used up. -/
theorem opened_initial {target : Bytes} {pool : List Bytes}
    (hpool : pool.map Bytes.toWord = powers (8 * target.size) ++ rest)
    (hrest : ∀ w ∈ rest, w < 2 ^ (8 * target.size)) :
    Opened target.size rest 0 (initial target pool) where
  width := rfl
  working := by
    have hall : rest.filterMap (tail? (8 * target.size)) = rest := by
      rw [List.filterMap_congr fun w hw => tail?_of_lt (hrest w hw)]
      exact List.filterMap_some
    rw [Nat.sub_zero, hall]
    exact hpool
  appended v _ _ := by
    rw [additions, Nat.sub_zero, Finset.Ico_self, Finset.sum_empty]
    rfl

/-- A position uses up one power, that of its own bit. This is the
step that carries the invariant through the sweep. -/
theorem Opened.cleared {i pivot : Nat} (h : Opened n rest i s)
    (hi : i < 8 * n)
    (hfind : s.working.find? (·.testBit (s.bitOf i)) = some pivot) :
    Opened n rest (i + 1) (s.cleared (s.bitOf i) pivot) := by
  obtain ⟨m, hm⟩ : ∃ m, 8 * n - i = m + 1 := ⟨8 * n - i - 1, by omega⟩
  have hnext : 8 * n - (i + 1) = m := by omega
  have hbit : s.bitOf i = m := by
    rw [bitOf, h.width]
    omega
  have hworking := h.working
  rw [hm] at hworking
  have hpivot : pivot = 2 ^ m := by
    rw [hbit, hworking, find?_powers] at hfind
    exact (Option.some.inj hfind).symm
  rw [hbit, hpivot]
  refine ⟨h.width, ?_, fun v hv hpow => ?_⟩
  · show s.working.filterMap (sift m (2 ^ m)) = _
    rw [hworking, hnext, filterMap_sift_powers]
  · show (contributeAll m s.balance s.working).appended.count v = _
    rw [hworking, count_appended_powers _ _ hpow, h.appended v hv hpow,
      count_filterMap_tail? _ _ hv, hnext, hm, additions, additions,
      Finset.sum_eq_sum_Ico_succ_bot (by omega : m < 8 * n), Nat.add_comm]

/-- A sweep over the powers and other words, after all its positions.
How often a word has been added is a sum over the positions. -/
theorem count_appended_foldlM {target : Bytes} {pool : List Bytes}
    (hpool : pool.map Bytes.toWord = powers (8 * target.size) ++ rest)
    (hrest : ∀ w ∈ rest, w < 2 ^ (8 * target.size))
    (h : (List.range (8 * target.size)).foldlM advance
      (initial target pool) = .ok s) (hv : v ≠ 0) (hpow : ∀ k, v ≠ 2 ^ k) :
    s.balance.appended.count v = additions rest 0 (8 * target.size) v := by
  have hopened : Opened target.size rest (8 * target.size) s := by
    refine keeps_foldlM
      (P := fun i s => i ≤ 8 * target.size → Opened target.size rest i s)
      (fun hs hfind hi => (hs (Nat.le_of_succ_le hi)).cleared hi hfind)
      (fun _ => opened_initial hpool hrest) h (Nat.le_refl _)
  rw [hopened.appended v hv hpow, Nat.sub_self]

end Sweep

-- ========================================================= unit values

namespace Solution

open Sweep

variable {target : Bytes} {pool rest : List Bytes} {s : Solution} {v : Nat}

/-- Values of words that fit occur as often as their words do. So it
does not matter whether words are counted or values. -/
theorem count_map_ofWord {n : Nat} {words : List Nat}
    (hwords : ∀ w ∈ words, w < 2 ^ (8 * n)) (hv : v < 2 ^ (8 * n)) :
    (words.map (Bytes.ofWord n)).count (Bytes.ofWord n v) = words.count v := by
  rw [List.count_eq_countP, List.count_eq_countP, List.countP_map]
  refine List.countP_congr fun w hw => ?_
  rw [Function.comp_apply, beq_iff_eq, beq_iff_eq]
  exact Bytes.ofWord_inj (hwords w hw) hv

/-- A value is computed if its word was added an odd number of times.
What is added twice comes out, and zero is left out anyhow. -/
theorem mem_computed_gathered_iff {t : Sweep}
    (h : Sweep.Sound target pool 0 t) (hv : v ≠ 0)
    (hlt : v < 2 ^ (8 * target.size)) :
    Bytes.ofWord target.size v ∈ (gathered target pool t).computed ↔
      t.balance.appended.count v % 2 = 1 := by
  have hfit : ∀ w ∈ t.balance.appended.reverse.filter (· != 0),
      w < 2 ^ (8 * target.size) := fun w hw =>
    h.appended_lt w (List.mem_reverse.1 (List.mem_filter.1 hw).1)
  have hcount : (t.balance.appended.reverse.filter (· != 0)).count v =
      t.balance.appended.count v := by
    rw [List.count_filter (by simpa using hv), List.count_reverse]
  rw [← hcount, ← count_map_ofWord hfit hlt]
  exact Bytes.mem_oddOnes

/-- The words of a pool that opens with the unit values. -/
theorem map_toWord_units_append (n : Nat) (rest : List Bytes) :
    (Bytes.units n ++ rest).map Bytes.toWord =
      powers (8 * n) ++ rest.map Bytes.toWord := by
  rw [List.map_append, Bytes.units, List.map_map, powers]
  congr 1
  refine List.map_congr_left fun k hk => ?_
  exact Bytes.toWord_ofWord
    (Nat.pow_lt_pow_right (by decide) (List.mem_range.1 hk))

/-- What is computed over the unit values and others behind them: the
value of a word with more than one bit exactly if the word is added an
odd number of times, which only the entries behind the unit values
have a say in. -/
theorem mem_computed_units_iff (hzero : target.isZero = false)
    (h : (find target (Bytes.units target.size ++ rest)).outcome = .ok s)
    (hv : v ≠ 0) (hpow : ∀ k, v ≠ 2 ^ k) (hlt : v < 2 ^ (8 * target.size)) :
    Bytes.ofWord target.size v ∈ s.computed ↔
      additions (rest.map Bytes.toWord) 0 (8 * target.size) v % 2 = 1 := by
  have hacc : Accepted target (Bytes.units target.size ++ rest) := by
    have hfinding := finding target (Bytes.units target.size ++ rest)
    rw [h] at hfinding
    exact hfinding.accepted
  have hrest : ∀ w ∈ rest.map Bytes.toWord, w < 2 ^ (8 * target.size) := by
    intro w hw
    obtain ⟨u, hu, rfl⟩ := List.mem_map.1 hw
    rw [← hacc.sizes u (List.mem_append_right _ hu)]
    exact u.toWord_lt
  obtain ⟨t, ht, hsound, rfl⟩ := exists_swept h hzero
  rw [mem_computed_gathered_iff hsound hv hlt,
    count_appended_foldlM (map_toWord_units_append _ _) hrest ht hv hpow]

-- =============================================================== crowds

/-- What is left of an entry of a crowd behind its first bit and the
gap. -/
def behind (j : Nat) : Nat := 2 ^ 36 + (j + 1)

/-- An entry of a crowd: its first bit, a gap, and what stands behind. -/
def gapped (j : Nat) : Nat := 2 ^ 38 + behind j

/-- The unit values of five bytes and so many entries with a gap. -/
def crowd (count : Nat) : List Bytes :=
  Bytes.units 5 ++ ((List.range count).map gapped).map (Bytes.ofWord 5)

variable {count j k m : Nat}

/-- So many entries that what is left of each stays below the gap, -/
theorem behind_lt (hcount : count < 2 ^ 36) (hj : j < count) :
    behind j < 2 ^ 37 := by
  unfold behind
  omega

/-- and each below the bit before its own. -/
theorem gapped_lt (hcount : count < 2 ^ 36) (hj : j < count) :
    gapped j < 2 ^ 39 := by
  have hbehind := behind_lt hcount hj
  unfold gapped
  omega

/-- A crowd has the forty unit values and its own entries. -/
theorem length_crowd (count : Nat) : (crowd count).length = 40 + count := by
  rw [crowd, Bytes.units, List.length_append, List.length_map,
    List.length_map, List.length_map, List.length_range, List.length_range]

/-- Its entries are five bytes long and it has the forty that are
asked for, so it is accepted. -/
theorem accepted_crowd (count : Nat) (hsize : target.size = 5) :
    Accepted target (crowd count) := by
  refine ⟨by omega, ?_, ?_⟩
  · intro u hu
    rw [hsize]
    rcases List.mem_append.1 hu with hu | hu
    · exact Bytes.size_of_mem_units hu
    · obtain ⟨w, -, rfl⟩ := List.mem_map.1 hu
      exact Bytes.size_ofWord 5 w
  · rw [hsize, length_crowd]
    exact Nat.le_add_right 40 count

/-- With the unit values in it, it reaches every target. Which of its
combinations it comes to does not matter here. -/
theorem exists_find_crowd (count : Nat) (hsize : target.size = 5) :
    ∃ s, (find target (crowd count)).outcome = .ok s := by
  have hacc := accepted_crowd count hsize
  refine exists_find_eq_ok hacc (Bytes.spans_of_units hacc.sizes ?_)
  intro u hu
  rw [hsize] at hu
  exact List.mem_append_left _ hu

/-- Of distinct entries one is what is asked for. It is used with the
test for what an entry has left. -/
theorem countP_gapped {p : Nat → Bool} (hj : j < count)
    (hp : ∀ i < count, p (gapped i) = true ↔ i = j) :
    ((List.range count).map gapped).countP p = 1 := by
  have hone : (List.range count).count j = 1 :=
    List.count_eq_one_of_mem List.nodup_range (List.mem_range.2 hj)
  rw [← hone, List.countP_map, List.count_eq_countP]
  refine List.countP_congr fun i hi => ?_
  rw [Function.comp_apply, beq_iff_eq]
  exact hp i (List.mem_range.1 hi)

/-- A word is added once if, for one bit beyond its own, it is what
one entry has left, and for the others what none has. Up to its own
first bit no entry can have it left: either the word has the bit, or
it is too long. -/
theorem additions_eq_one {words : List Nat} {high top : Nat}
    (hle : 2 ^ top ≤ v) (hlt : v < 2 ^ (top + 1)) (hm : top < m)
    (hhigh : m < high) (hone : words.countP (· % 2 ^ (m + 1) = v) = 1)
    (hothers : ∀ k, top < k → k < high → k ≠ m →
      ∀ w ∈ words, w % 2 ^ (k + 1) ≠ v) :
    additions words 0 high v = 1 := by
  have hclear : v.testBit m = false :=
    Nat.testBit_lt_two_pow
      (Nat.lt_of_lt_of_le hlt (Nat.pow_le_pow_right (by decide) hm))
  have hnone : ∀ k ∈ Finset.Ico 0 high, k ≠ m → (if v.testBit k then 0
      else words.countP (· % 2 ^ (k + 1) = v)) = 0 := by
    intro k hk hne
    have hcountP (h : ∀ w ∈ words, w % 2 ^ (k + 1) ≠ v) :
        words.countP (· % 2 ^ (k + 1) = v) = 0 :=
      List.countP_eq_zero.2 fun w hw => by simpa using h w hw
    rcases Nat.lt_trichotomy k top with hlow | rfl | htop
    · rw [hcountP, ite_self]
      intro w _ hw
      have hshort : w % 2 ^ (k + 1) < 2 ^ (k + 1) :=
        Nat.mod_lt w (Nat.two_pow_pos _)
      have hlong : 2 ^ (k + 1) ≤ 2 ^ top :=
        Nat.pow_le_pow_right (by decide) hlow
      omega
    · rw [testBit_of_lead hle hlt]
      rfl
    · rw [hcountP (hothers k htop (Finset.mem_Ico.1 hk).2 hne), ite_self]
  rw [additions, Finset.sum_eq_single m hnone
    (fun h => absurd (Finset.mem_Ico.2 ⟨Nat.zero_le m, hhigh⟩) h), hclear]
  exact hone

/-- An entry is added as it stands, for the bit before its first. At
that position the entry has not been changed yet and does not have the
bit; at every later one it is longer than what is left. -/
theorem additions_gapped (hcount : count < 2 ^ 36) (hj : j < count) :
    additions ((List.range count).map gapped) 0 40 (gapped j) = 1 := by
  have hlt := gapped_lt hcount hj
  refine additions_eq_one (m := 39) (Nat.le_add_right _ _) hlt (by omega)
    (by omega) (countP_gapped hj fun i hi => ?_) (fun k _ _ _ => by omega)
  have hi' := gapped_lt hcount hi
  rw [decide_eq_true_eq, Nat.mod_eq_of_lt (by omega)]
  unfold gapped behind
  omega

/-- What is left of it is added for the last bit of the gap. Before
the gap the entries are longer, and behind it the word has bits of its
own. -/
theorem additions_behind (hcount : count < 2 ^ 36) (hj : j < count) :
    additions ((List.range count).map gapped) 0 40 (behind j) = 1 := by
  have hlt := behind_lt hcount hj
  refine additions_eq_one (m := 37) (Nat.le_add_right _ _) hlt (by omega)
    (by omega) (countP_gapped hj fun i hi => ?_) ?_
  · have hi' := behind_lt hcount hi
    have hleft : gapped i % 2 ^ (37 + 1) = behind i := by
      rw [gapped, Nat.add_mod_left, Nat.mod_eq_of_lt (by omega)]
    rw [decide_eq_true_eq, hleft]
    unfold behind
    omega
  · intro k hlow hhigh hne w hw
    obtain ⟨i, hi, rfl⟩ := List.mem_map.1 hw
    -- before the gap nothing has been taken off an entry
    have hwhole : gapped i % 2 ^ (k + 1) = gapped i := by
      refine Nat.mod_eq_of_lt (Nat.lt_of_lt_of_le
        (gapped_lt hcount (List.mem_range.1 hi)) ?_)
      exact Nat.pow_le_pow_right (by decide) (by omega)
    rw [hwhole]
    unfold gapped
    omega

/-- So over a crowd the value of such a word is computed. It has more
than one bit, so it is not one of the unit values. -/
theorem mem_computed_crowd (hsize : target.size = 5)
    (hzero : target.isZero = false) (hcount : count < 2 ^ 36)
    (h : (find target (crowd count)).outcome = .ok s) (hgt : 2 ^ k < v)
    (hlt : v < 2 ^ (k + 1)) (hk : k < 40)
    (hone : additions ((List.range count).map gapped) 0 40 v = 1) :
    Bytes.ofWord 5 v ∈ s.computed := by
  have hpow : ∀ i, v ≠ 2 ^ i := by
    rintro i rfl
    have hki := (Nat.pow_lt_pow_iff_right (by decide : 1 < 2)).1 hgt
    have hik := (Nat.pow_lt_pow_iff_right (by decide : 1 < 2)).1 hlt
    omega
  have hfit : ∀ w ∈ (List.range count).map gapped, w < 2 ^ (8 * 5) := by
    intro w hw
    obtain ⟨i, hi, rfl⟩ := List.mem_map.1 hw
    have hi' := gapped_lt hcount (List.mem_range.1 hi)
    omega
  have hv : v < 2 ^ (8 * 5) :=
    Nat.lt_of_lt_of_le hlt (Nat.pow_le_pow_right (by decide) (by omega))
  have hfound : (find target (Bytes.units target.size ++
      ((List.range count).map gapped).map (Bytes.ofWord 5))).outcome =
      .ok s := by
    rw [hsize]
    exact h
  have hiff := mem_computed_units_iff hzero hfound (by omega) hpow
    (by rw [hsize]; exact hv)
  rw [hsize, map_toWord_ofWord hfit] at hiff
  rw [hiff, show 8 * 5 = 40 from rfl, hone]

/-- No two of the words added to a crowd's account are the same: an
entry is longer than what is left of any. -/
theorem nodup_words (hcount : count < 2 ^ 36) :
    ((List.range count).map gapped ++
      (List.range count).map behind).Nodup := by
  have hgapped : Function.Injective gapped := by
    intro i j h
    unfold gapped behind at h
    omega
  have hbehind : Function.Injective behind := by
    intro i j h
    unfold behind at h
    omega
  refine (List.nodup_range.map hgapped).append
    (List.nodup_range.map hbehind) ?_
  intro w hw hw'
  obtain ⟨i, -, rfl⟩ := List.mem_map.1 hw
  obtain ⟨j, hj, heq⟩ := List.mem_map.1 hw'
  have hlt := behind_lt hcount (List.mem_range.1 hj)
  unfold gapped at heq
  omega

/-- Over a crowd twice as many values are computed as it has entries
besides the unit values: each entry, and what is left of it. -/
theorem two_mul_le_length_computed (hsize : target.size = 5)
    (hzero : target.isZero = false) (hcount : count < 2 ^ 36)
    (h : (find target (crowd count)).outcome = .ok s) :
    2 * count ≤ s.computed.length := by
  let words := (List.range count).map gapped ++ (List.range count).map behind
  have hwords : ∀ w ∈ words,
      w < 2 ^ (8 * 5) ∧ Bytes.ofWord 5 w ∈ s.computed := by
    intro w hw
    rcases List.mem_append.1 hw with hw | hw
    · obtain ⟨j, hj, rfl⟩ := List.mem_map.1 hw
      have hlt := gapped_lt hcount (List.mem_range.1 hj)
      have hgt : 2 ^ 38 < gapped j := by
        unfold gapped behind
        omega
      exact ⟨by omega, mem_computed_crowd hsize hzero hcount h hgt hlt
        (by decide) (additions_gapped hcount (List.mem_range.1 hj))⟩
    · obtain ⟨j, hj, rfl⟩ := List.mem_map.1 hw
      have hlt := behind_lt hcount (List.mem_range.1 hj)
      have hgt : 2 ^ 36 < behind j := by
        unfold behind
        omega
      exact ⟨by omega, mem_computed_crowd hsize hzero hcount h hgt hlt
        (by decide) (additions_behind hcount (List.mem_range.1 hj))⟩
  have hnodup : (words.map (Bytes.ofWord 5)).Nodup :=
    (nodup_words hcount).map_on fun v hv w hw heq =>
      (Bytes.ofWord_inj (hwords v hv).1 (hwords w hw).1).1 heq
  have hsubset : words.map (Bytes.ofWord 5) ⊆ s.computed := by
    intro u hu
    obtain ⟨w, hw, rfl⟩ := List.mem_map.1 hu
    exact (hwords w hw).2
  have hlength : (words.map (Bytes.ofWord 5)).length = 2 * count := by
    rw [List.length_map, List.length_append, List.length_map,
      List.length_map, List.length_range, Nat.two_mul]
  rw [← hlength]
  exact hnodup.length_le_of_subset hsubset

end Solution

-- ============================================================ no answer

/-- A crowd can be counted by a frame when the values computed over it
cannot. Then all is well up to the receipt of the sweep, which is
refused. -/
theorem solve_of_crowd {target : Bytes} {count : Nat}
    (hsize : target.size = 5) (hzero : target.isZero = false)
    (hmany : 0x80000000 ≤ count) (hcount : count + 40 ≤ 0xffffffff) :
    Solution.Accepted target (Solution.crowd count) ∧
    (Solution.crowd count).length ≤ 0xffffffff ∧
    ∃ s : Solution,
      (Solution.find target (Solution.crowd count)).outcome = .ok s ∧
      0xffffffff < s.computed.length ∧
      (solve .base target (Solution.crowd count)).outcome =
        .error (.receipt (.frame (.tooMany s.computed.length))) := by
  have hacc := Solution.accepted_crowd count hsize
  have hlength : (Solution.crowd count).length ≤ 0xffffffff := by
    rw [Solution.length_crowd]
    omega
  obtain ⟨s, hs⟩ := Solution.exists_find_crowd count hsize
  have htwice :=
    Solution.two_mul_le_length_computed hsize hzero (by omega) hs
  have hover : 0xffffffff < s.computed.length := by omega
  refine ⟨hacc, hlength, s, hs, hover, ?_⟩
  have hsolving := solving hacc (by omega) hlength
  rw [hs] at hsolving
  generalize (solve .base target (Solution.crowd count)).outcome =
    q at hsolving ⊢
  cases hsolving with
  | answered fits => exact absurd hover (Nat.not_lt.2 fits)
  | unframed => rfl

/-- The least such crowd. The input is checked, five bytes and fewer
than `2 ^ 32` values have frames, a combination is found, and it is
not returned. -/
theorem solve_crowd :
    Solution.Accepted #[0, 0, 0, 0, 1] (Solution.crowd 0x80000000) ∧
    (Solution.crowd 0x80000000).length ≤ 0xffffffff ∧
    ∃ s : Solution,
      (Solution.find #[0, 0, 0, 0, 1]
        (Solution.crowd 0x80000000)).outcome = .ok s ∧
      0xffffffff < s.computed.length ∧
      (solve .base #[0, 0, 0, 0, 1] (Solution.crowd 0x80000000)).outcome =
        .error (.receipt (.frame (.tooMany s.computed.length))) :=
  solve_of_crowd rfl (by decide +kernel) (Nat.le_refl _) (by decide)

end XorSpan
