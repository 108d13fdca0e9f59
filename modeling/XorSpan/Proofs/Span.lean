/-
Spans: the words that sums of words of a list can reach. A sum takes any
part of the list; since a word added twice is gone, that is the same as
adding words of the list again and again (`span_iff_sublist`), and the
latter is what inductions are made for.

Two facts carry the elimination.

- `span_sift`: taking the pivot out and clearing its bit everywhere else
  leaves the part of the span in which that bit is clear, no more and no
  less. Copies of the pivot would become zero, so dropping them is sound.
- `span_of_leads`: a span with a word of every bit length up to `m` holds
  every word below `2 ^ m`.
-/
import XorSpan.Proofs.Sums

namespace XorSpan

-- =============================================================== bits

theorem ne_zero_of_testBit {bit w : Nat} (h : w.testBit bit = true) :
    w ≠ 0 := by
  rintro rfl
  rw [Nat.zero_testBit] at h
  cases h

/-- Clearing the highest bit makes a word shorter. -/
theorem lt_of_testBit_eq_false {m v : Nat} (hlt : v < 2 ^ (m + 1))
    (h : v.testBit m = false) :
    v < 2 ^ m := by
  refine Nat.lt_pow_two_of_testBit v fun k hk => ?_
  rcases Nat.lt_or_eq_of_le hk with hmk | rfl
  · exact Nat.testBit_lt_two_pow
      (Nat.lt_of_lt_of_le hlt (Nat.pow_le_pow_right (by decide) hmk))
  · exact h

theorem testBit_of_lead {m v : Nat} (hle : 2 ^ m ≤ v) (hlt : v < 2 ^ (m + 1)) :
    v.testBit m = true :=
  Nat.testBit_of_two_pow_le_and_two_pow_add_one_gt hle hlt

/-- Two words of the same length have a shorter sum. Their highest
bits cancel. -/
theorem xor_lt_of_testBit {m v w : Nat} (hv : v < 2 ^ (m + 1))
    (hw : w < 2 ^ (m + 1))
    (hbv : v.testBit m = true) (hbw : w.testBit m = true) : v ^^^ w < 2 ^ m :=
  lt_of_testBit_eq_false (Nat.xor_lt_two_pow hv hw)
    (by rw [Nat.testBit_xor, hbv, hbw]; rfl)

-- ============================================================== spans

/-- A word is reached from nothing by adding words of the list. -/
inductive Span (words : List Nat) : Nat → Prop where
  | zero : Span words 0
  | add {w v : Nat} (hw : w ∈ words) (hv : Span words v) : Span words (w ^^^ v)

namespace Span

variable {words others : List Nat} {v w : Nat}

theorem of_mem (h : w ∈ words) : Span words w := by
  rw [← Nat.xor_zero w]
  exact .add h .zero

theorem xor (hv : Span words v) (hw : Span words w) : Span words (v ^^^ w) := by
  induction hv with
  | zero => rwa [Nat.zero_xor]
  | add hu _ ih =>
    rw [Nat.xor_assoc]
    exact .add hu ih

/-- What spans the generators spans all that they span. Elimination is
judged by this in both directions. -/
theorem trans (h : ∀ w ∈ words, Span others w)
    (hv : Span words v) : Span others v := by
  induction hv with
  | zero => exact .zero
  | add hw _ ih => exact (h _ hw).xor ih

/-- Sums of words that fit into so many bits do so too. -/
theorem lt {k : Nat} (h : ∀ w ∈ words, w < 2 ^ k)
    (hv : Span words v) : v < 2 ^ k := by
  induction hv with
  | zero => exact Nat.two_pow_pos k
  | add hw _ ih => exact Nat.xor_lt_two_pow (h _ hw) ih

/-- A bit that no generator has no sum has. So there is no sum at a
position where all entries are clear. -/
theorem testBit_eq_false {k : Nat} (h : ∀ w ∈ words, w.testBit k = false)
    (hv : Span words v) :
    v.testBit k = false := by
  induction hv with
  | zero => exact Nat.zero_testBit k
  | add hw _ ih => rw [Nat.testBit_xor, h _ hw, ih]; rfl

/-- The first word of a list is in a sum or not. In the second case
the rest of the list makes the remainder. -/
theorem cons_cases (hv : Span (w :: words) v) :
    Span words v ∨ Span words (w ^^^ v) := by
  induction hv with
  | zero => exact .inl .zero
  | @add u v hu _ ih =>
    rcases List.mem_cons.1 hu with rfl | hu
    · rcases ih with ih | ih
      · exact .inr (by rwa [xor_cancel_left])
      · exact .inl ih
    · rcases ih with ih | ih
      · exact .inl (.add hu ih)
      · refine .inr ?_
        rw [← Nat.xor_assoc, Nat.xor_comm w u, Nat.xor_assoc]
        exact .add hu ih

end Span

/-- The span holds the sums of parts of the list. Parts take each
entry at most once, but more would cancel out. -/
theorem span_iff_sublist {words : List Nat} {v : Nat} :
    Span words v ↔ ∃ part, part.Sublist words ∧ xorSum part = v := by
  constructor
  · intro hv
    induction words generalizing v with
    | nil =>
      cases hv with
      | zero => exact ⟨[], .slnil, rfl⟩
      | add hw => cases hw
    | cons w words ih =>
      rcases hv.cons_cases with hv | hv
      · obtain ⟨part, hpart, hsum⟩ := ih hv
        exact ⟨part, hpart.cons w, hsum⟩
      · obtain ⟨part, hpart, hsum⟩ := ih hv
        refine ⟨w :: part, hpart.cons_cons w, ?_⟩
        rw [xorSum_cons, hsum, xor_cancel_left]
  · intro h
    obtain ⟨part, hpart, rfl⟩ := h
    have hmem : ∀ w ∈ part, w ∈ words := fun w hw => hpart.subset hw
    clear hpart
    induction part with
    | nil => exact .zero
    | cons w part ih =>
      obtain ⟨hw, hpart⟩ := List.forall_mem_cons.1 hmem
      exact .add hw (ih hpart)

/-- With a word of every bit length up to `m`, everything below
`2 ^ m` is reached: clear the highest bit, then go on with a shorter
word. -/
theorem span_of_leads {words : List Nat} {m : Nat}
    (h : ∀ k < m, ∃ u, Span words u ∧ 2 ^ k ≤ u ∧ u < 2 ^ (k + 1)) {v : Nat}
    (hv : v < 2 ^ m) :
    Span words v := by
  induction m generalizing v with
  | zero =>
    have hzero : v = 0 := by simpa using hv
    rw [hzero]
    exact .zero
  | succ m ih =>
    have hbelow : ∀ {u : Nat}, u < 2 ^ m → Span words u :=
      fun hu => ih (fun k hk => h k (Nat.lt_succ_of_lt hk)) hu
    cases hbit : v.testBit m with
    | false => exact hbelow (lt_of_testBit_eq_false hv hbit)
    | true =>
      obtain ⟨u, hu, hle, hlt⟩ := h m (Nat.lt_succ_self m)
      have hshort : v ^^^ u < 2 ^ m :=
        xor_lt_of_testBit hv hlt hbit (testBit_of_lead hle hlt)
      rw [← xor_cancel_right v u]
      exact (hbelow hshort).xor hu

-- ======================================================== elimination

/-- What elimination makes of a word: nothing of the pivot and its
copies, else the word with the bit cleared. -/
def sift (bit pivot w : Nat) : Option Nat :=
  if w.testBit bit then if w = pivot then none else some (w ^^^ pivot)
  else some w

/-- The pivot goes. Its copies go with it, as they have no bits left. -/
theorem sift_self {bit pivot : Nat} (hpivot : pivot.testBit bit = true) :
    sift bit pivot pivot = none := by
  unfold sift
  rw [hpivot, if_pos rfl, if_pos rfl]

/-- Every other word stays, or has one in its place; that one is zero
only if the word was. -/
theorem exists_sift (bit : Nat) {pivot w : Nat} (hne : w ≠ pivot) :
    ∃ u, sift bit pivot w = some u ∧ (u = 0 ↔ w = 0) := by
  unfold sift
  cases hbit : w.testBit bit with
  | false => exact ⟨w, rfl, Iff.rfl⟩
  | true =>
    rw [if_pos rfl, if_neg hne]
    exact ⟨w ^^^ pivot, rfl,
      iff_of_false (mt xor_eq_zero_iff.1 hne) (ne_zero_of_testBit hbit)⟩

/-- What is left after elimination: the entries without the bit as
they were, and the others with the pivot added, copies of the pivot
apart. -/
theorem mem_sift {bit pivot u : Nat} {words : List Nat} :
    u ∈ words.filterMap (sift bit pivot) ↔
      (u ∈ words ∧ u.testBit bit = false) ∨
        ∃ w ∈ words, w.testBit bit = true ∧ w ≠ pivot ∧ u = w ^^^ pivot := by
  rw [List.mem_filterMap]
  constructor
  · intro hex
    obtain ⟨w, hw, h⟩ := hex
    unfold sift at h
    split at h
    · next hbit =>
      split at h
      · cases h
      · next hne =>
        cases h
        exact .inr ⟨w, hw, hbit, hne, rfl⟩
    · next hbit =>
      cases h
      exact .inl ⟨hw, by simpa using hbit⟩
  · rintro (⟨hu, hbit⟩ | ⟨w, hw, hbit, hne, rfl⟩)
    · exact ⟨u, hu, by simp [sift, hbit]⟩
    · exact ⟨w, hw, by simp [sift, hbit, hne]⟩

/-- After elimination the bit is clear everywhere. So the entries at
work get shorter from position to position. -/
theorem testBit_of_mem_sift {bit pivot u : Nat} {words : List Nat}
    (hpivot : pivot.testBit bit = true)
    (hu : u ∈ words.filterMap (sift bit pivot)) :
    u.testBit bit = false := by
  rcases mem_sift.1 hu with ⟨-, hbit⟩ | ⟨w, -, hbit, -, rfl⟩
  · exact hbit
  · rw [Nat.testBit_xor, hbit, hpivot]
    rfl

/-- Up to the pivot, nothing is lost by elimination. Whether the pivot
is needed is decided by whether the bit is set. -/
theorem span_sift_or {bit pivot v : Nat} {words : List Nat}
    (hv : Span words v) :
    Span (words.filterMap (sift bit pivot)) v ∨
      Span (words.filterMap (sift bit pivot)) (v ^^^ pivot) := by
  induction hv with
  | zero => exact .inl .zero
  | @add w v hw _ ih =>
    cases hbit : w.testBit bit with
    | false =>
      have hmem : w ∈ words.filterMap (sift bit pivot) :=
        mem_sift.2 (.inl ⟨hw, hbit⟩)
      rw [Nat.xor_assoc]
      exact ih.imp (.add hmem) (.add hmem)
    | true =>
      by_cases hne : w = pivot
      · subst hne
        rcases ih with ih | ih
        · exact .inr (by rwa [xor_xor_cancel_comm])
        · exact .inl (by rwa [Nat.xor_comm])
      · have hmem : w ^^^ pivot ∈ words.filterMap (sift bit pivot) :=
          mem_sift.2 (.inr ⟨w, hw, hbit, hne, rfl⟩)
        rcases ih with ih | ih
        · refine .inr ?_
          rw [Nat.xor_assoc, Nat.xor_comm v, ← Nat.xor_assoc]
          exact .add hmem ih
        · refine .inl ?_
          have hsum : w ^^^ v = (w ^^^ pivot) ^^^ (v ^^^ pivot) := by
            rw [Nat.xor_comm v pivot, Nat.xor_assoc, xor_cancel_left]
          rw [hsum]
          exact .add hmem ih

/-- Elimination keeps exactly the sums in which the bit is clear. What
is lost are the sums that begin at the bit, and the pivot is kept for
these. -/
theorem span_sift {bit pivot v : Nat} {words : List Nat} (hmem : pivot ∈ words)
    (hpivot : pivot.testBit bit = true) :
    Span (words.filterMap (sift bit pivot)) v ↔
    Span words v ∧ v.testBit bit = false := by
  have hclear {u : Nat} (hu : Span (words.filterMap (sift bit pivot)) u) :
      u.testBit bit = false :=
    hu.testBit_eq_false fun w hw => testBit_of_mem_sift hpivot hw
  constructor
  · intro hv
    refine ⟨hv.trans fun u hu => ?_, hclear hv⟩
    rcases mem_sift.1 hu with ⟨hu, -⟩ | ⟨w, hw, -, -, rfl⟩
    · exact .of_mem hu
    · exact (Span.of_mem hw).xor (.of_mem hmem)
  · intro hall
    obtain ⟨hv, hbit⟩ := hall
    have hor : Span (words.filterMap (sift bit pivot)) v ∨
        Span (words.filterMap (sift bit pivot)) (v ^^^ pivot) := span_sift_or hv
    rcases hor with h | h
    · exact h
    · have hset : (v ^^^ pivot).testBit bit = true := by
        rw [Nat.testBit_xor, hbit, hpivot]
        rfl
      rw [hclear h] at hset
      cases hset

-- ======================================================= sums of values

namespace Bytes

/-- The value is the XOR of a part of the pool. -/
def IsSumOf (v : Bytes) (pool : List Bytes) : Prop :=
  ∃ part : List Bytes, part.Sublist pool ∧ xorAll v.size part = v

/-- Whether a value is a sum of others is a question about their
words. -/
theorem isSumOf_iff {n : Nat} {pool : List Bytes} {v : Bytes}
    (hpool : ∀ u ∈ pool, u.size = n)
    (hv : v.size = n) : v.IsSumOf pool ↔ Span (pool.map toWord) v.toWord := by
  subst hv
  rw [span_iff_sublist]
  constructor
  · intro h
    obtain ⟨part, hpart, hsum⟩ := h
    refine ⟨part.map toWord, hpart.map _, ?_⟩
    rw [← toWord_xorAll fun u hu => hpool u (hpart.subset hu), hsum]
  · intro h
    obtain ⟨words, hwords, hsum⟩ := h
    obtain ⟨part, hpart, rfl⟩ := List.sublist_map_iff.1 hwords
    have hsizes : ∀ u ∈ part, u.size = v.size :=
      fun u hu => hpool u (hpart.subset hu)
    refine ⟨part, hpart, eq_of_toWord_eq (size_xorAll hsizes) ?_⟩
    rw [toWord_xorAll hsizes, hsum]

/-- Every value of `n` bytes is the XOR of a part of the pool. -/
def Spans (n : Nat) (pool : List Bytes) : Prop :=
  ∀ v : Bytes, v.size = n → v.IsSumOf pool

/-- Some XOR of a part of the pool has its first bit at `position`. -/
def Leads (n : Nat) (pool : List Bytes) (position : Nat) : Prop :=
  ∃ v : Bytes, v.size = n ∧ v.IsSumOf pool ∧ v.firstBit? = some position

/-- So is whether there is a sum that begins at a position: its word
has its highest bit there. -/
theorem leads_iff {n position : Nat} {pool : List Bytes}
    (hpool : ∀ u ∈ pool, u.size = n) :
    Leads n pool position ↔ position < 8 * n ∧
      ∃ w, Span (pool.map toWord) w ∧ 2 ^ (8 * n - 1 - position) ≤ w ∧
        w < 2 ^ (8 * n - position) := by
  constructor
  · intro h
    obtain ⟨v, rfl, hsum, hfirst⟩ := h
    obtain ⟨hi, hle, hlt⟩ := firstBit?_eq_some_iff.1 hfirst
    exact ⟨hi, v.toWord, (isSumOf_iff hpool rfl).1 hsum, hle, hlt⟩
  · intro h
    obtain ⟨hi, w, hw, hle, hlt⟩ := h
    have hfit : w < 2 ^ (8 * n) :=
      Nat.lt_of_lt_of_le hlt (Nat.pow_le_pow_right (by decide) (Nat.sub_le _ _))
    have hsize : (ofWord n w).size = n := size_ofWord n w
    refine ⟨ofWord n w, hsize, (isSumOf_iff hpool hsize).2 ?_,
      firstBit?_eq_some_iff.2 ?_⟩
    · rwa [toWord_ofWord hfit]
    · rw [hsize, toWord_ofWord hfit]
      exact ⟨hi, hle, hlt⟩

/-- A pool reaches every value exactly when it has a sum for every
first bit. -/
theorem spans_iff_leads {n : Nat} {pool : List Bytes}
    (hpool : ∀ u ∈ pool, u.size = n) :
    Spans n pool ↔ ∀ position < 8 * n, Leads n pool position := by
  constructor
  · intro h position hi
    rw [leads_iff hpool]
    have hlt : 2 ^ (8 * n - 1 - position) < 2 ^ (8 * n - position) :=
      Nat.pow_lt_pow_right (by decide) (by omega)
    have hfit : 2 ^ (8 * n - 1 - position) < 2 ^ (8 * n) :=
      Nat.pow_lt_pow_right (by decide) (by omega)
    refine ⟨hi, 2 ^ (8 * n - 1 - position), ?_, Nat.le_refl _, hlt⟩
    rw [← toWord_ofWord hfit]
    exact (isSumOf_iff hpool (size_ofWord _ _)).1 (h _ (size_ofWord _ _))
  · intro h v hv
    rw [isSumOf_iff hpool hv]
    refine span_of_leads (m := 8 * n) (fun k hk => ?_) (hv ▸ v.toWord_lt)
    obtain ⟨-, w, hw, hle, hlt⟩ :=
      (leads_iff hpool).1 (h (8 * n - 1 - k) (by omega))
    rw [show 8 * n - 1 - (8 * n - 1 - k) = k by omega] at hle
    rw [show 8 * n - (8 * n - 1 - k) = k + 1 by omega] at hlt
    exact ⟨w, hw, hle, hlt⟩

/-- For each bit the value of `n` bytes that has no other. -/
def units (n : Nat) : List Bytes :=
  (List.range (8 * n)).map fun k => ofWord n (2 ^ k)

theorem size_of_mem_units {n : Nat} {v : Bytes} (h : v ∈ units n) :
    v.size = n := by
  obtain ⟨k, -, rfl⟩ := List.mem_map.1 h
  exact size_ofWord ..

/-- A pool in which every bit has a value of its own reaches every
value. A value is the sum of those for its own bits. -/
theorem spans_of_units {n : Nat} {pool : List Bytes}
    (hpool : ∀ u ∈ pool, u.size = n)
    (h : ∀ u ∈ units n, u ∈ pool) : Spans n pool := by
  intro v hv
  rw [isSumOf_iff hpool hv]
  refine span_of_leads (m := 8 * n) (fun k hk => ?_) (hv ▸ v.toWord_lt)
  have hfit : 2 ^ k < 2 ^ (8 * n) := Nat.pow_lt_pow_right (by decide) hk
  have hunit : ofWord n (2 ^ k) ∈ units n :=
    List.mem_map.2 ⟨k, List.mem_range.2 hk, rfl⟩
  refine ⟨2 ^ k, ?_, Nat.le_refl _,
    Nat.pow_lt_pow_right (by decide) (Nat.lt_succ_self k)⟩
  rw [← toWord_ofWord hfit]
  exact .of_mem (List.mem_map_of_mem (h _ hunit))

end Bytes

end XorSpan
