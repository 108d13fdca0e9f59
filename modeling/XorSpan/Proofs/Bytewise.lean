/-
Arithmetic on words, said byte by byte. A value of `n` bytes and a number
below `256 ^ n` are two forms of one thing, and what goes over the words
does to the values what its bytewise namesake does: byte `j` of a sum is
the XOR of the bytes `j` of the summands, at every length, zeros in front
and no bytes at all included (`words_bytewise`).

This rests on one fact: XOR carries nothing over. A sum of words that fit
in `n` bytes fits in them too, so writing the total back is never what
fails.
-/
import Mathlib.Algebra.Ring.Int.Defs
import XorSpan.Proofs.Requests
import XorSpan.Proofs.Sums

namespace XorSpan.Bytes

variable {a b c total : Bytes} {n : Nat} {w width : Int}
    {values others : List Bytes}

-- ===================================================== values and words

/-- So many bytes are so many digits in base 256. So a bound on bits
is a bound in bytes. -/
theorem lt_two_pow_iff (w n : Nat) :
    w < 2 ^ (8 * n) ↔ (0 : Int) ≤ w ∧ (w : Int) < 256 ^ n := by
  have hpow : 2 ^ (8 * n) = 256 ^ n := Nat.pow_mul 2 8 n
  rw [hpow]
  constructor
  · intro h
    exact ⟨Int.natCast_nonneg w, by exact_mod_cast h⟩
  · intro h
    exact_mod_cast h.2

/-- A number that does not fit, or is negative, is refused under the
width that was asked for. -/
theorem checkWidth_eq_error (h : ¬(0 ≤ w ∧ w < 256 ^ n)) :
    checkWidth w n = .error (.tooWide w n) := by
  cases w with
  | negSucc k => rfl
  | ofNat k =>
    have hwide : 2 ^ (8 * n) ≤ k := Nat.not_lt.1 ((lt_two_pow_iff k n).not.2 h)
    have hpos : 0 < 2 ^ (8 * n) := Nat.two_pow_pos _
    refine if_neg ?_
    rw [Nat.shiftRight_eq_div_pow, Nat.div_eq_zero_iff]
    omega

/-- A number has no value exactly if it is negative or does not fit. -/
theorem ofWord?_eq_error_iff :
    (∃ e, ofWord? w n = .error e) ↔ ¬(0 ≤ w ∧ w < 256 ^ n) := by
  constructor
  · intro hrefused hrange
    obtain ⟨e, he⟩ := hrefused
    obtain ⟨k, rfl⟩ := Int.eq_ofNat_of_zero_le hrange.1
    rw [← Int.ofNat_eq_natCast,
      ofWord?_eq_ok ((lt_two_pow_iff k n).2 hrange)] at he
    cases he
  · intro hrange
    unfold ofWord?
    rw [checkWidth_eq_error hrange]
    exact ⟨_, rfl⟩

/-- The value of a word is the one that has the word. So there is one
value of a length for each number that fits. -/
theorem ofWord?_eq_ok_iff :
    ofWord? w n = .ok b ↔ b.size = n ∧ (b.toWord : Int) = w := by
  constructor
  · intro h
    have hrange : 0 ≤ w ∧ w < 256 ^ n := by
      by_contra hrange
      obtain ⟨e, he⟩ := ofWord?_eq_error_iff.2 hrange
      cases h.symm.trans he
    obtain ⟨k, rfl⟩ := Int.eq_ofNat_of_zero_le hrange.1
    have hlt : k < 2 ^ (8 * n) := (lt_two_pow_iff k n).2 hrange
    cases h.symm.trans (ofWord?_eq_ok hlt)
    exact ⟨size_ofWord n k, by rw [toWord_ofWord hlt]⟩
  · intro h
    obtain ⟨rfl, rfl⟩ := h
    have hvalue : ofWord? (Int.ofNat b.toWord) b.size = _ :=
      ofWord?_eq_ok b.toWord_lt
    rw [ofWord_toWord] at hvalue
    exact hvalue

-- ============================================================ two values

/-- Byte by byte, the XOR of two values of one length is the XOR of
their bytes. -/
theorem getD_xor (h : a.size = b.size) (j : Nat) :
    (a.xor b).getD j 0 = a.getD j 0 ^^^ b.getD j 0 := by
  rw [Array.getD_eq_getD_getElem?, Array.getD_eq_getD_getElem?,
    Array.getD_eq_getD_getElem?, xor, Array.getElem?_zipWith]
  by_cases hj : j < a.size
  · rw [Array.getElem?_eq_getElem hj, Array.getElem?_eq_getElem (h ▸ hj)]
    rfl
  · rw [Array.getElem?_eq_none (by omega), Array.getElem?_eq_none (by omega)]
    rfl

/-- Two values of one length have their XOR, -/
theorem xor?_eq (h : a.size = b.size) : xor? a b = .ok (a.xor b) := by
  have hlt : a.toWord ^^^ b.toWord < 2 ^ (8 * a.size) :=
    Nat.xor_lt_two_pow a.toWord_lt (h ▸ b.toWord_lt)
  have hsize : (a.xor b).size = a.size := by rw [size_xor, ← h, Nat.min_self]
  unfold xor?
  rw [if_pos h, ofWord?_eq_ok hlt, ← toWord_xor h, ofWord_toWord_of_size hsize]

/-- and two of different lengths are refused. -/
theorem xor?_eq_error_iff : (∃ e, xor? a b = .error e) ↔ a.size ≠ b.size := by
  constructor
  · intro hrefused h
    obtain ⟨e, he⟩ := hrefused
    cases (xor?_eq h).symm.trans he
  · intro h
    exact ⟨_, if_neg h⟩

-- ================================================================== sums

/-- Byte by byte, the XOR of several values is that of their bytes.
Positions behind the last byte are zero on both sides. -/
theorem getD_xorAll (h : ∀ v ∈ values, v.size = n) (j : Nat) :
    (xorAll n values).getD j 0 =
      (values.map fun v => v.getD j 0).foldr (· ^^^ ·) 0 := by
  induction values with
  | nil =>
    show (zeros n).getD j 0 = 0
    unfold zeros
    rw [Array.getD_eq_getD_getElem?, Array.getElem?_replicate]
    split <;> rfl
  | cons v values ih =>
    obtain ⟨hv, hvalues⟩ := List.forall_mem_cons.1 h
    have hsize : v.size = (xorAll n values).size := by
      rw [hv, size_xorAll hvalues]
    rw [List.map_cons, List.foldr_cons, ← ih hvalues, ← getD_xor hsize]
    rfl

/-- A sum is refused exactly if some value has another length than it
should. -/
theorem sum_eq_error_iff :
    (∃ e, sum values n = .error e) ↔ ∃ v ∈ values, v.size ≠ n := by
  constructor
  · intro hrefused
    obtain ⟨e, he⟩ := hrefused
    by_contra hsizes
    simp only [not_exists, not_and, not_not] at hsizes
    cases (sum_eq hsizes).symm.trans he
  · intro hmisfit
    obtain ⟨v, hv, hne⟩ := hmisfit
    cases hsum : sum values n with
    | error e => exact ⟨e, rfl⟩
    | ok total => exact absurd ((sum_eq_ok_iff.1 hsum).1 v hv) hne

/-- Byte by byte, the total is the XOR of the summands. -/
structure IsSum (n : Nat) (values : List Bytes) (total : Bytes) : Prop where
  size : total.size = n
  byte : ∀ j < n, total.getD j 0 =
    (values.map fun v => v.getD j 0).foldr (· ^^^ ·) 0

/-- A sum that is given is the bytewise one. -/
theorem isSum_of_sum (h : sum values n = .ok total) : IsSum n values total := by
  obtain ⟨hsizes, rfl⟩ := sum_eq_ok_iff.1 h
  exact ⟨size_xorAll hsizes, fun j _ => getD_xorAll hsizes j⟩

/-- The bytewise XOR does not depend on the order. -/
theorem xorAll_perm (h : ∀ v ∈ values, v.size = n)
    (hperm : values.Perm others) :
    xorAll n values = xorAll n others := by
  have hothers : ∀ v ∈ others, v.size = n :=
    fun v hv => h v (hperm.mem_iff.2 hv)
  refine eq_of_toWord_eq ((size_xorAll h).trans (size_xorAll hothers).symm) ?_
  rw [toWord_xorAll h, toWord_xorAll hothers, xorSum_perm (hperm.map toWord)]

/-- So it does not depend on the order of the values. -/
theorem sum_perm (hperm : values.Perm others) (h : sum values n = .ok total) :
    sum others n = .ok total := by
  obtain ⟨hsizes, rfl⟩ := sum_eq_ok_iff.1 h
  exact sum_eq_ok_iff.2
    ⟨fun v hv => hsizes v (hperm.mem_iff.2 hv), (xorAll_perm hsizes hperm).symm⟩

/-- The total of the words fits. -/
theorem exists_ofWord?_of_sumFrom {word : Nat}
    (h : sumFrom n 0 0 values = .ok word) :
    ∃ total, ofWord? (Int.ofNat word) n = .ok total := by
  have hsum := sum_eq (size_of_sumFrom_eq_ok h)
  unfold sum at hsum
  rw [h] at hsum
  exact ⟨_, hsum⟩

/-- Of a negative width there is no sum, not even of no values. -/
theorem sum_of_neg (h : width < 0) : ∃ e, sum values width = .error e := by
  unfold sum
  cases values with
  | nil =>
    obtain ⟨k, rfl⟩ := Int.eq_negSucc_of_lt_zero h
    exact ⟨_, rfl⟩
  | cons v values =>
    have hne : (v.size : Int) ≠ width := by omega
    rw [sumFrom, if_neg hne]
    exact ⟨_, rfl⟩

-- =============================================================== outcome

/-- Values of `n` bytes and the numbers below `256 ^ n` are in
one-to-one correspondence, and no other number has a value. The XOR of
two values is refused exactly if their lengths differ, and a sum
exactly if a summand has another length than is asked for; else both
are taken byte by byte, in whatever order, and the total of the words
never fails to have a value. A length below zero is always refused.
Requests about bytes are answered so, if there is room for the value. -/
theorem words_bytewise :
    (∀ b : Bytes, (0 : Int) ≤ b.toWord ∧ (b.toWord : Int) < 256 ^ b.size ∧
      ofWord? b.toWord b.size = .ok b) ∧
    (∀ (w : Int) (n : Nat),
      ((∃ e, ofWord? w n = .error e) ↔ ¬(0 ≤ w ∧ w < 256 ^ n)) ∧
      ∀ b, ofWord? w n = .ok b ↔ b.size = n ∧ (b.toWord : Int) = w) ∧
    (∀ a b : Bytes,
      ((∃ e, xor? a b = .error e) ↔ a.size ≠ b.size) ∧
      ∀ c, xor? a b = .ok c → c.size = a.size ∧
        ∀ j < a.size, c.getD j 0 = a.getD j 0 ^^^ b.getD j 0) ∧
    (∀ (values : List Bytes) (n : Nat),
      ((∃ e, sum values n = .error e) ↔ ∃ v ∈ values, v.size ≠ n) ∧
      (∀ total, sum values n = .ok total → IsSum n values total) ∧
      (∀ others, values.Perm others →
        ∀ total, sum values n = .ok total ↔ sum others n = .ok total) ∧
      ∀ word : Nat, sumFrom n 0 0 values = .ok word → ∃ total,
      ofWord? word n = .ok total) ∧
    (∀ (values : List Bytes) (width : Int), width < 0 →
      ∃ e, sum values width = .error e) ∧
    (∀ a b : Bytes, Request.xor (.bytes a) (.bytes b) =
      (xor? a b).mapError .word) ∧
    ∀ width, Capacity.checkValue width = .ok () →
      (∀ w, Request.value w width = (ofWord? w width).mapError .word) ∧
      ∀ values : List Bytes,
        Request.sum (values.map .bytes) width =
          (sum values width).mapError .word := by
  refine ⟨?_, fun w n => ⟨ofWord?_eq_error_iff, fun b => ofWord?_eq_ok_iff⟩,
    ?_, ?_, fun values width h => sum_of_neg h, Request.xor_bytes, ?_⟩
  · intro b
    obtain ⟨hpos, hlt⟩ := (lt_two_pow_iff _ _).1 b.toWord_lt
    exact ⟨hpos, hlt, ofWord?_eq_ok_iff.2 ⟨rfl, rfl⟩⟩
  · intro a b
    refine ⟨xor?_eq_error_iff, ?_⟩
    intro c hc
    have h : a.size = b.size := by
      by_contra h
      obtain ⟨e, he⟩ := xor?_eq_error_iff.2 h
      cases hc.symm.trans he
    cases hc.symm.trans (xor?_eq h)
    exact ⟨by rw [size_xor, ← h, Nat.min_self], fun j _ => getD_xor h j⟩
  · intro values n
    refine ⟨sum_eq_error_iff, fun total => isSum_of_sum, ?_,
      fun word => exists_ofWord?_of_sumFrom⟩
    intro others hperm total
    exact ⟨sum_perm hperm, sum_perm hperm.symm⟩
  · intro width hroom
    exact ⟨fun w => Request.value_eq w hroom,
      fun values => Request.sum_bytes hroom⟩

/-- Two values of two bytes, the first byte of the one zero and of the
total too. -/
theorem words_bytewise_two : sum [#[0, 255], #[0, 15]] 2 = .ok #[0, 240] ∧
    IsSum 2 [#[0, 255], #[0, 15]] #[0, 240] ∧
    sum [#[0, 15], #[0, 255]] 2 = .ok #[0, 240] := by
  obtain ⟨-, -, -, hsums, -⟩ := words_bytewise
  obtain ⟨-, hbytes, horder, -⟩ := hsums [#[0, 255], #[0, 15]] 2
  have hsum : sum [#[0, 255], #[0, 15]] 2 = .ok #[0, 240] :=
    sum_eq_ok_iff.2 ⟨by decide, by decide +kernel⟩
  exact ⟨hsum, hbytes _ hsum, (horder _ (.swap ..) _).1 hsum⟩

end XorSpan.Bytes
