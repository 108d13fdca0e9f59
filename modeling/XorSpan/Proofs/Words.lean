/-
What words know of values. A value of `n` bytes and its word determine
each other, the words of such values are the numbers below `2 ^ (8 * n)`,
and the bytewise XOR of two values has the XOR of their words as its
word. So whatever is proved of words holds of values, and the other way
round.

The middle term is `spell`, the number that a list of bytes spells: it
follows the list, so its laws are inductions on the list.
-/
import Mathlib.Algebra.Ring.Nat
import XorSpan.Bytes.Bits
import XorSpan.Bytes.Word

namespace XorSpan.Bytes

-- ================================================= spelling a number

/-- The number that bytes spell in base 256. -/
def spell (bytes : List UInt8) : Nat := bytes.foldl wordStep 0

@[simp] theorem spell_nil : spell [] = 0 := rfl

/-- The first byte counts most: it is worth its number times the
weight of all that follows. -/
theorem spell_cons (x : UInt8) (xs : List UInt8) :
    spell (x :: xs) = 2 ^ (8 * xs.length) * x.toNat + spell xs := by
  unfold spell
  rw [List.foldl_cons, foldl_wordStep, Nat.shiftLeft_eq]
  simp [wordStep, Nat.mul_comm]

/-- So many bytes spell less than the power of two with that many
bits, so none of them spills into the byte before. -/
theorem spell_lt (xs : List UInt8) : spell xs < 2 ^ (8 * xs.length) := by
  induction xs with
  | nil => simp
  | cons x xs ih =>
    have hx : x.toNat < 256 := x.toNat_lt
    have hpow : 2 ^ (8 * (x :: xs).length) = 2 ^ (8 * xs.length) * 256 := by
      rw [List.length_cons, Nat.mul_succ, Nat.pow_add]
    rw [spell_cons, hpow]
    calc 2 ^ (8 * xs.length) * x.toNat + spell xs
        < 2 ^ (8 * xs.length) * x.toNat + 2 ^ (8 * xs.length) := by omega
      _ = 2 ^ (8 * xs.length) * (x.toNat + 1) := by
          rw [Nat.mul_add, Nat.mul_one]
      _ ≤ 2 ^ (8 * xs.length) * 256 := Nat.mul_le_mul_left _ (by omega)

/-- The bits of the first byte stand above those of all the others. -/
theorem testBit_spell_cons (x : UInt8) (xs : List UInt8) (k : Nat) :
    (spell (x :: xs)).testBit k =
      if k < 8 * xs.length then (spell xs).testBit k
        else x.toNat.testBit (k - 8 * xs.length) := by
  rw [spell_cons]
  exact Nat.testBit_two_pow_mul_add _ (spell_lt xs) k

/-- Bytewise XOR spells the XOR. It goes byte by byte, since no byte
spills into the one before. -/
theorem spell_zipWith_xor {xs ys : List UInt8} (h : xs.length = ys.length) :
    spell (List.zipWith (· ^^^ ·) xs ys) = spell xs ^^^ spell ys := by
  induction xs generalizing ys with
  | nil =>
    have hys : ys = [] := List.length_eq_zero_iff.1 h.symm
    simp [hys]
  | cons x xs ih =>
    cases ys with
    | nil => cases h
    | cons y ys =>
      have hlen : xs.length = ys.length := by simpa using h
      have hzip : (List.zipWith (· ^^^ ·) xs ys).length = ys.length := by
        simp [hlen]
      apply Nat.eq_of_testBit_eq
      intro k
      rw [List.zipWith_cons_cons, Nat.testBit_xor, testBit_spell_cons,
        testBit_spell_cons, testBit_spell_cons, ih hlen, hzip, hlen]
      split
      · rw [Nat.testBit_xor]
      · rw [UInt8.toNat_xor, Nat.testBit_xor]

/-- Bytes of one length that spell the same number are the same.
Without the lengths it fails: zero bytes in front make no difference. -/
theorem eq_of_spell_eq {xs ys : List UInt8} (hlen : xs.length = ys.length)
    (h : spell xs = spell ys) : xs = ys := by
  induction xs generalizing ys with
  | nil => exact (List.length_eq_zero_iff.1 hlen.symm).symm
  | cons x xs ih =>
    cases ys with
    | nil => cases hlen
    | cons y ys =>
      have hlen' : xs.length = ys.length := by simpa using hlen
      have hx := spell_lt xs
      have hy := spell_lt ys
      rw [spell_cons, spell_cons, hlen'] at h
      rw [hlen'] at hx
      -- dividing by the weight of the first byte leaves that byte
      have hpos : 0 < 2 ^ (8 * ys.length) := Nat.two_pow_pos _
      have hxy : x.toNat = y.toNat := by
        have hdiv := congrArg (· / 2 ^ (8 * ys.length)) h
        simpa [Nat.mul_add_div hpos, Nat.div_eq_of_lt hx,
          Nat.div_eq_of_lt hy] using hdiv
      have htail : spell xs = spell ys := by
        rw [hxy] at h
        omega
      rw [UInt8.toNat_inj.1 hxy, ih hlen' htail]

/-- Only zero bytes spell zero. -/
theorem spell_eq_zero_iff {xs : List UInt8} :
    spell xs = 0 ↔ ∀ x ∈ xs, x = 0 := by
  induction xs with
  | nil => simp
  | cons x xs ih =>
    have hpos : 2 ^ (8 * xs.length) ≠ 0 := Nat.ne_of_gt (Nat.two_pow_pos _)
    rw [spell_cons, Nat.add_eq_zero_iff, Nat.mul_eq_zero, ih,
      List.forall_mem_cons]
    simp only [hpos, false_or]
    exact and_congr_left fun _ => UInt8.toNat_inj (b := 0)

-- ===================================================== values and words

variable {a b : Bytes}

/-- A word is put together by halves; this says that the halves make
no difference. -/
theorem toWord_eq_spell (b : Bytes) : b.toWord = spell b.toList :=
  toWord_eq_foldl b

/-- The word of a value fits into its bits. -/
theorem toWord_lt (b : Bytes) : b.toWord < 2 ^ (8 * b.size) := by
  rw [toWord_eq_spell, ← Array.length_toList]
  exact spell_lt _

/-- Values of one length are told apart by their words. All values of
one run have one length, so words can stand for them. -/
theorem eq_of_toWord_eq (hsize : a.size = b.size) (h : a.toWord = b.toWord) :
    a = b := by
  apply Array.toList_inj.1
  rw [toWord_eq_spell, toWord_eq_spell] at h
  exact eq_of_spell_eq (by simpa using hsize) h

/-- The XOR of two values of one length is that of their words. Of
values of different lengths the longer one would be cut off. -/
theorem toWord_xor (h : a.size = b.size) :
    (a.xor b).toWord = a.toWord ^^^ b.toWord := by
  rw [toWord_eq_spell, toWord_eq_spell, toWord_eq_spell, xor,
    Array.toList_zipWith]
  exact spell_zipWith_xor (by simpa using h)

/-- A value is zero if its word is; how long it is does not matter. -/
theorem isZero_iff (b : Bytes) : b.isZero = true ↔ b.toWord = 0 := by
  rw [toWord_eq_spell, spell_eq_zero_iff, isZero, ← Array.all_toList,
    List.all_eq_true]
  exact forall_congr' fun x => imp_congr_right fun _ => beq_iff_eq

@[simp] theorem toWord_zeros (n : Nat) : (zeros n).toWord = 0 := by
  rw [toWord_eq_spell, spell_eq_zero_iff]
  simp [zeros]

/-- The bytes cut out of a word, from the left, spell what fits of it.
What does not fit is cut off on the left. -/
theorem spell_map_range (n word : Nat) :
    spell ((List.range n).map
      fun i => UInt8.ofNat (word >>> (8 * (n - 1 - i)))) =
      word % 2 ^ (8 * n) := by
  induction n with
  | zero => simp [Nat.mod_one]
  | succ n ih =>
    rw [List.range_succ_eq_map, List.map_cons, List.map_map, spell_cons]
    have htail :
        ((fun i => UInt8.ofNat (word >>> (8 * (n + 1 - 1 - i)))) ∘ Nat.succ) =
        fun i => UInt8.ofNat (word >>> (8 * (n - 1 - i))) := by
      funext i
      simp only [Function.comp_apply]
      congr 3
      omega
    rw [htail, ih]
    simp only [List.length_map, List.length_range,
      Nat.add_sub_cancel, Nat.sub_zero, UInt8.toNat_ofNat',
      Nat.shiftRight_eq_div_pow]
    rw [Nat.mul_succ, Nat.pow_add, Nat.mod_mul, Nat.add_comm]

/-- The word of the value of a word is what fits of it. -/
theorem toWord_ofWord_mod (n word : Nat) :
    (ofWord n word).toWord = word % 2 ^ (8 * n) := by
  rw [toWord_eq_spell, ofWord, toList_pushWord]
  exact spell_map_range n word

/-- A word that fits is not changed by being written out and read
again. -/
theorem toWord_ofWord {n word : Nat} (h : word < 2 ^ (8 * n)) :
    (ofWord n word).toWord = word := by
  rw [toWord_ofWord_mod, Nat.mod_eq_of_lt h]

/-- Nor is a value by being read and written out in its own length. -/
theorem ofWord_toWord (b : Bytes) : ofWord b.size b.toWord = b :=
  eq_of_toWord_eq (size_ofWord _ _) (toWord_ofWord (toWord_lt b))

/-- The same with the length given apart from the value, as where all
values of a list have one length. -/
theorem ofWord_toWord_of_size {n : Nat} (h : b.size = n) :
    ofWord n b.toWord = b := by
  rw [← h, ofWord_toWord]

/-- Words that fit are told apart by their values. Words that do not
fit may share a value with one that does. -/
theorem ofWord_inj {n v w : Nat} (hv : v < 2 ^ (8 * n)) (hw : w < 2 ^ (8 * n)) :
    ofWord n v = ofWord n w ↔ v = w := by
  refine ⟨fun h => ?_, fun h => h ▸ rfl⟩
  rw [← toWord_ofWord hv, ← toWord_ofWord hw, h]

/-- Values of words of one width are combined by combining the words,
whether or not the words fit. -/
theorem ofWord_xor (n v w : Nat) :
    (ofWord n v).xor (ofWord n w) = ofWord n (v ^^^ w) := by
  have hsize : (ofWord n v).size = (ofWord n w).size := by simp
  apply eq_of_toWord_eq (by simp)
  rw [toWord_xor hsize, toWord_ofWord_mod, toWord_ofWord_mod, toWord_ofWord_mod,
    Nat.xor_mod_two_pow]

/-- A word that fits is zero if its value is; a longer one could have
its bits cut off. -/
theorem isZero_ofWord {n w : Nat} (h : w < 2 ^ (8 * n)) :
    (ofWord n w).isZero = true ↔ w = 0 := by
  rw [isZero_iff, toWord_ofWord h]

-- ============================================================ first bits

/-- The position of the first bit that is set, counted from the left. -/
def firstBit? (b : Bytes) : Option Nat := b.toBits.findIdx? id

theorem length_bitsOfByte (x : UInt8) : (bitsOfByte x).length = 8 := rfl

/-- Position `i` from the left of a byte is bit `7 - i` of its number. -/
theorem getElem?_bitsOfByte (x : UInt8) {i : Nat} (hi : i < 8) :
    (bitsOfByte x)[i]? = some (x.toNat.testBit (7 - i)) := by
  match i with
  | 0 | 1 | 2 | 3 | 4 | 5 | 6 | 7 => rfl
  | i + 8 => omega

/-- A value has eight bits to a byte. -/
theorem length_toBits (b : Bytes) : b.toBits.length = 8 * b.size := by
  rw [toBits, List.length_flatMap]
  simp only [length_bitsOfByte, List.map_const', List.sum_replicate_nat,
    Array.length_toList]
  exact Nat.mul_comm ..

/-- Position `i` from the left of several bytes is the bit of what
they spell that has so many bits below it. -/
theorem getElem?_flatMap_bitsOfByte (xs : List UInt8) {i : Nat}
    (hi : i < 8 * xs.length) :
    (xs.flatMap bitsOfByte)[i]? =
      some ((spell xs).testBit (8 * xs.length - 1 - i)) := by
  induction xs generalizing i with
  | nil => simp at hi
  | cons x xs ih =>
    rw [List.flatMap_cons, testBit_spell_cons, List.length_cons]
    rw [List.length_cons] at hi
    rcases Nat.lt_or_ge i 8 with h | h
    · rw [List.getElem?_append_left (by rw [length_bitsOfByte]; exact h),
        getElem?_bitsOfByte x h, if_neg (by omega)]
      congr 2
      omega
    · rw [List.getElem?_append_right (by rw [length_bitsOfByte]; exact h),
        length_bitsOfByte, ih (by omega), if_pos (by omega)]
      congr 2
      omega

/-- Position `i` from the left is bit `8 * n - 1 - i` of the word.
Positions are counted from the left and bits from the right, and this
is where the two are tied together. -/
theorem getElem?_toBits (b : Bytes) {i : Nat} (hi : i < 8 * b.size) :
    b.toBits[i]? = some (b.toWord.testBit (8 * b.size - 1 - i)) := by
  rw [toWord_eq_spell, toBits]
  have h := getElem?_flatMap_bitsOfByte b.toList (i := i) (by simpa using hi)
  simpa using h

/-- The word of a value has its highest bit where the value has its
first. So first bits are compared by comparing words with powers of
two. -/
theorem firstBit?_eq_some_iff {b : Bytes} {i : Nat} :
    b.firstBit? = some i ↔
      i < 8 * b.size ∧ 2 ^ (8 * b.size - 1 - i) ≤ b.toWord ∧
      b.toWord < 2 ^ (8 * b.size - i) := by
  have hget {j : Nat} (hj : j < b.toBits.length) :
      b.toBits[j] = b.toWord.testBit (8 * b.size - 1 - j) := by
    have hj' : j < 8 * b.size := by rwa [length_toBits] at hj
    have h := getElem?_toBits b hj'
    rw [List.getElem?_eq_getElem hj] at h
    exact Option.some.inj h
  rw [firstBit?, List.findIdx?_eq_some_iff_getElem]
  constructor
  · intro hall
    obtain ⟨hi, hset, hclear⟩ := hall
    have hi' : i < 8 * b.size := by rwa [length_toBits] at hi
    simp only [id_eq, hget] at hset hclear
    refine ⟨hi', Nat.ge_two_pow_of_testBit hset,
      Nat.lt_pow_two_of_testBit _ fun k hk => ?_⟩
    rcases Nat.lt_or_ge k (8 * b.size) with hk' | hk'
    · have h := hclear (8 * b.size - 1 - k) (by omega)
      rw [show 8 * b.size - 1 - (8 * b.size - 1 - k) = k by omega] at h
      simpa using h
    · exact Nat.testBit_lt_two_pow
        (Nat.lt_of_lt_of_le b.toWord_lt (Nat.pow_le_pow_right (by decide) hk'))
  · intro hall
    obtain ⟨hi, hle, hlt⟩ := hall
    have hi' : i < b.toBits.length := by rwa [length_toBits]
    refine ⟨hi', ?_, fun j hj => ?_⟩
    · rw [id_eq, hget]
      refine Nat.testBit_of_two_pow_le_and_two_pow_add_one_gt hle ?_
      rwa [show 8 * b.size - 1 - i + 1 = 8 * b.size - i by omega]
    · rw [id_eq, hget, Bool.not_eq_true]
      refine Nat.testBit_lt_two_pow (Nat.lt_of_lt_of_le hlt ?_)
      exact Nat.pow_le_pow_right (by decide) (by omega)

/-- A word that begins at a bit gives a value that begins at the
position of that bit from the left. -/
theorem firstBit?_ofWord {n m w : Nat} (hm : m < 8 * n) (hle : 2 ^ m ≤ w)
    (hlt : w < 2 ^ (m + 1)) :
    (ofWord n w).firstBit? = some (8 * n - 1 - m) := by
  have hfit : w < 2 ^ (8 * n) :=
    Nat.lt_of_lt_of_le hlt (Nat.pow_le_pow_right (by decide) hm)
  rw [firstBit?_eq_some_iff, size_ofWord, toWord_ofWord hfit,
    show 8 * n - 1 - (8 * n - 1 - m) = m by
      omega, show 8 * n - (8 * n - 1 - m) = m + 1 by omega]
  exact ⟨by omega, hle, hlt⟩

/-- A value that is not zero has a first bit. It is the first position
that is not clear. -/
theorem exists_firstBit? {b : Bytes} (h : b.isZero = false) :
    ∃ i, b.firstBit? = some i := by
  have hne : b.toWord ≠ 0 := fun h0 => by
    rw [(isZero_iff b).2 h0] at h
    cases h
  have hlog : b.toWord.log2 < 8 * b.size := (Nat.log2_lt hne).2 b.toWord_lt
  have hfirst := firstBit?_ofWord hlog (Nat.log2_self_le hne) Nat.lt_log2_self
  rw [ofWord_toWord] at hfirst
  exact ⟨_, hfirst⟩

-- ============================================================= lengths

/-- No value is found not to fit exactly if all have the length. -/
theorem misfit?_eq_none_iff {n : Nat} {values : List Bytes} :
    misfit? n values = none ↔ ∀ v ∈ values, v.size = n := by
  unfold misfit?
  split
  · next h => simpa using h
  · next i h =>
    obtain ⟨hi, hne, -⟩ := List.findIdx?_eq_some_iff_getElem.1 h
    constructor
    · intro h'
      cases h'
    · intro hall
      exact absurd (hall _ (List.getElem_mem hi)) (by simpa using hne)

/-- The value that does not fit is the first of its kind. It is given
with its index and its length, as the error tells them. -/
theorem misfit?_eq_some {n i actual : Nat} {values : List Bytes}
    (h : misfit? n values = some (i, actual)) :
    ∃ hi : i < values.length, values[i].size = actual ∧ actual ≠ n ∧
      ∀ j (hj : j < i), values[j].size = n := by
  unfold misfit? at h
  split at h
  · cases h
  · next k hk =>
    obtain ⟨hi, hne, hbefore⟩ := List.findIdx?_eq_some_iff_getElem.1 hk
    simp only [Option.some.injEq, Prod.mk.injEq] at h
    obtain ⟨rfl, hactual⟩ := h
    rw [List.getElem?_eq_getElem hi] at hactual
    have hsize : values[k].size = actual := hactual
    refine ⟨hi, hsize, by rw [← hsize]; simpa using hne, fun j hj => ?_⟩
    simpa using hbefore j hj

end XorSpan.Bytes
