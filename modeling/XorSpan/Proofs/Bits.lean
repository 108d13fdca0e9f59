/-
The three views of a bit. Position `i` of an `n`-byte value stands in the
bit sequence of the value, in its word moved to the right, and under the
mask of the position; all three show bit `8 * n - 1 - i` of the word, so
they agree (`bits_agree`).

Packing bits is the inverse of taking a value apart, as long as the groups
are full. A last group of fewer than eight bits goes into the low bits of
its byte, so in the sequence of the packed value it is filled up with
zeros in front (`toBits_ofBits`).

Byte and group are compared bit by bit: what a group of up to eight bits
packs into has them, last first, as its lowest bits (`testBit_byteOfBits`).
-/
import Mathlib.Data.List.Induction
import Mathlib.Data.Nat.Bitwise
import XorSpan.Proofs.Words

namespace XorSpan.Bytes

variable {b : Bytes} {bits whole part : List Bool} {n i : Nat}

-- ============================================================== one byte

/-- One more bit moves the others up. The byte is read off from the
left, as a number is. -/
theorem byteOfBits_concat (bits : List Bool) (bit : Bool) :
    byteOfBits (bits ++ [bit]) = byteOfBits bits <<< 1 |||
      if bit then 1 else 0 := by
  unfold byteOfBits
  rw [List.foldl_append]
  rfl

/-- The last bit of a group is the lowest of its byte. A group that is
not full has its bits at the low end. -/
theorem testBit_byteOfBits (h : bits.length ≤ 8) (k : Nat) :
    (byteOfBits bits).toNat.testBit k = bits.reverse[k]?.getD false := by
  induction bits using List.reverseRecOn generalizing k with
  | nil => simp [byteOfBits]
  | append_singleton bits bit ih =>
    rw [List.length_append, List.length_singleton] at h
    have hbit : (if bit then (1 : UInt8) else 0).toNat = bit.toNat := by
      cases bit <;> rfl
    have hone : (1 : UInt8).toNat % 8 = 1 := rfl
    rw [byteOfBits_concat, UInt8.toNat_or, Nat.testBit_or,
      UInt8.toNat_shiftLeft, hbit, hone, Nat.testBit_mod_two_pow,
      Nat.testBit_shiftLeft, List.reverse_append]
    cases k with
    | zero => cases bit <;> rfl
    | succ k =>
      have hhigh : bit.toNat.testBit (k + 1) = false := by
        cases bit <;> simp [Nat.testBit_succ]
      have hrest : ([bit].reverse ++ bits.reverse)[k + 1]? =
          bits.reverse[k]? := rfl
      rw [hhigh, hrest, Nat.add_sub_cancel, ih (by omega), Bool.or_false]
      -- the bit that the byte has no room for is none of the group's
      by_cases hk : k + 1 < 8
      · simp [hk]
      · rw [List.getElem?_eq_none (by rw [List.length_reverse]; omega)]
        simp

/-- A group of up to eight bits, taken apart again, has zeros in
front. For a full group there are none, and nothing has changed. -/
theorem bitsOfByte_byteOfBits (h : bits.length ≤ 8) :
    bitsOfByte (byteOfBits bits) =
      List.replicate (8 - bits.length) false ++ bits := by
  apply List.ext_getElem?
  intro i
  rcases Nat.lt_or_ge i 8 with hi | hi
  · rw [getElem?_bitsOfByte _ hi, testBit_byteOfBits h]
    rcases Nat.lt_or_ge i (8 - bits.length) with hzero | hbit
    · rw [List.getElem?_append_left
        (by rw [List.length_replicate]; exact hzero),
        List.getElem?_replicate, if_pos hzero,
        List.getElem?_eq_none (by rw [List.length_reverse]; omega)]
      rfl
    · rw [List.getElem?_append_right
        (by rw [List.length_replicate]; exact hbit),
        List.length_replicate, List.getElem?_reverse (by omega)]
      have hplace : bits.length - 1 - (7 - i) =
          i - (8 - bits.length) := by omega
      have hlt : i - (8 - bits.length) < bits.length := by omega
      rw [hplace, List.getElem?_eq_getElem hlt]
      rfl
  · have hlength :
        (List.replicate (8 - bits.length) false ++ bits).length = 8 := by
      rw [List.length_append, List.length_replicate]
      omega
    rw [List.getElem?_eq_none (by rw [length_bitsOfByte]; exact hi),
      List.getElem?_eq_none (by rw [hlength]; exact hi)]

theorem bitsOfByte_inj {x y : UInt8} (h : bitsOfByte x = bitsOfByte y) :
    x = y := by
  apply UInt8.toNat_inj.1
  apply Nat.eq_of_testBit_eq
  intro k
  rcases Nat.lt_or_ge k 8 with hk | hk
  · have hbits : (bitsOfByte x)[7 - k]? = (bitsOfByte y)[7 - k]? := by rw [h]
    rw [getElem?_bitsOfByte x (by omega),
      getElem?_bitsOfByte y (by omega)] at hbits
    have hback : 7 - (7 - k) = k := by omega
    rw [hback] at hbits
    exact Option.some.inj hbits
  · have hpow : 2 ^ 8 ≤ 2 ^ k := Nat.pow_le_pow_right (by decide) hk
    rw [Nat.testBit_lt_two_pow (Nat.lt_of_lt_of_le x.toNat_lt hpow),
      Nat.testBit_lt_two_pow (Nat.lt_of_lt_of_le y.toNat_lt hpow)]

theorem byteOfBits_bitsOfByte (x : UInt8) : byteOfBits (bitsOfByte x) = x := by
  apply bitsOfByte_inj
  rw [bitsOfByte_byteOfBits (Nat.le_of_eq (length_bitsOfByte x)),
    length_bitsOfByte]
  rfl

-- ================================================================ groups

/-- The first eight bits are a group, and the others are grouped
behind them. -/
theorem bitGroups_of_ne_nil (h : bits ≠ []) :
    bitGroups bits = bits.take 8 :: bitGroups (bits.drop 8) := by
  cases bits with
  | nil => exact absurd rfl h
  | cons bit rest => rw [bitGroups]

/-- A group is not cut. Only the last group can be shorter than eight. -/
theorem bitGroups_of_length_le (hne : bits ≠ []) (h : bits.length ≤ 8) :
    bitGroups bits = [bits] := by
  rw [bitGroups_of_ne_nil hne, List.take_of_length_le h,
    List.drop_of_length_le h, bitGroups]

theorem length_bitGroups (bits : List Bool) :
    (bitGroups bits).length = (bits.length + 7) / 8 := by
  fun_induction bitGroups bits with
  | case1 => rfl
  | case2 bit rest ih =>
    rw [List.length_cons, ih, List.length_drop, List.length_cons]
    omega

/-- Full groups are cut off in front whatever follows. So the part
that is not full can be looked at by itself. -/
theorem bitGroups_append (h : whole.length % 8 = 0) (part : List Bool) :
    bitGroups (whole ++ part) = bitGroups whole ++ bitGroups part := by
  fun_induction bitGroups whole with
  | case1 => rfl
  | case2 bit rest ih =>
    have hlong : 8 ≤ (bit :: rest).length := by
      rw [List.length_cons] at h ⊢
      omega
    have hrest : ((bit :: rest).drop 8).length % 8 = 0 := by
      rw [List.length_drop]
      omega
    rw [bitGroups_of_ne_nil (List.append_ne_nil_of_left_ne_nil
      (List.cons_ne_nil _ _) _),
      List.take_append_of_le_length hlong,
      List.drop_append_of_le_length hlong, ih hrest, List.cons_append]

/-- A last byte that is not full counts as a whole one. -/
theorem size_ofBits (bits : List Bool) :
    (ofBits bits).size = (bits.length + 7) / 8 := by
  unfold ofBits
  rw [List.size_toArray, List.length_map, length_bitGroups]

/-- Every group of bits becomes a byte, and its bits are those of the
byte. -/
theorem toBits_ofBits_eq_flatMap (bits : List Bool) :
    toBits (ofBits bits) = (bitGroups bits).flatMap fun group =>
      bitsOfByte (byteOfBits group) := by
  unfold toBits ofBits
  rw [List.toList_toArray, List.flatMap_map]

/-- Bits in full groups are packed without loss. The induction takes
off a group at a time. -/
theorem toBits_ofBits_of_full (h : bits.length % 8 = 0) :
    toBits (ofBits bits) = bits := by
  rw [toBits_ofBits_eq_flatMap]
  fun_induction bitGroups bits with
  | case1 => rfl
  | case2 bit rest ih =>
    have hgroup : ((bit :: rest).take 8).length = 8 := by
      rw [List.length_take]
      rw [List.length_cons] at h ⊢
      omega
    have hrest : ((bit :: rest).drop 8).length % 8 = 0 := by
      rw [List.length_drop]
      omega
    rw [List.flatMap_cons, ih hrest,
      bitsOfByte_byteOfBits (Nat.le_of_eq hgroup), hgroup]
    exact List.take_append_drop 8 _

/-- A value is packed again from its bits. A value has its bits in
full groups, so there is nothing to fill. -/
theorem ofBits_toBits (b : Bytes) : ofBits b.toBits = b := by
  have hbytes (xs : List UInt8) :
      (bitGroups (xs.flatMap bitsOfByte)).map byteOfBits = xs := by
    induction xs with
    | nil => rw [List.flatMap_nil, bitGroups, List.map_nil]
    | cons x xs ih =>
      have hgroup : bitGroups (bitsOfByte x) = [bitsOfByte x] :=
        bitGroups_of_length_le (List.cons_ne_nil _ _)
          (Nat.le_of_eq (length_bitsOfByte x))
      rw [List.flatMap_cons, bitGroups_append (by rw [length_bitsOfByte]),
        hgroup, List.singleton_append, List.map_cons, byteOfBits_bitsOfByte, ih]
  unfold ofBits toBits
  rw [hbytes]

/-- A group that is left over behind full ones comes back with zeros
in front of it. -/
theorem toBits_ofBits_append (hwhole : whole.length % 8 = 0)
    (hpart : part.length < 8) :
    toBits (ofBits (whole ++ part)) =
      whole ++ (List.replicate ((8 - part.length) % 8) false ++ part) := by
  have hfull := toBits_ofBits_of_full hwhole
  rw [toBits_ofBits_eq_flatMap] at hfull ⊢
  rw [bitGroups_append hwhole, List.flatMap_append, hfull]
  refine congrArg (whole ++ ·) ?_
  by_cases hnil : part = []
  · rw [hnil, bitGroups]
    rfl
  · have hpos : 0 < part.length := List.length_pos_iff.2 hnil
    have hle : part.length ≤ 8 := Nat.le_of_lt hpart
    have hzeros : (8 - part.length) % 8 = 8 - part.length :=
      Nat.mod_eq_of_lt (by omega)
    rw [bitGroups_of_length_le hnil hle, List.flatMap_singleton,
      bitsOfByte_byteOfBits hle, hzeros]

/-- The sequence with its last group, if it is not full, filled up
with zeros in front. -/
def filled (bits : List Bool) : List Bool :=
  bits.take (8 * (bits.length / 8)) ++
    (List.replicate ((8 - bits.length % 8) % 8) false ++
      bits.drop (8 * (bits.length / 8)))

/-- Packed and taken apart, bits come back with the last group filled.
The zeros are put in front of the bits that are left over, and not
behind. -/
theorem toBits_ofBits (bits : List Bool) :
    toBits (ofBits bits) = filled bits := by
  have hwhole : (bits.take (8 * (bits.length / 8))).length =
      8 * (bits.length / 8) := by
    rw [List.length_take]
    omega
  have hpart : (bits.drop (8 * (bits.length / 8))).length =
      bits.length % 8 := by
    rw [List.length_drop]
    omega
  have happend : toBits (ofBits (bits.take (8 * (bits.length / 8)) ++
      bits.drop (8 * (bits.length / 8)))) = _ :=
    toBits_ofBits_append (by omega) (by omega)
  rw [List.take_append_drop, hpart] at happend
  exact happend

-- ============================================================= one bit

/-- The bit at a position of a word, counted from the left. It is the
same bit as in the list of all bits. -/
theorem bitAt_eq (word : Nat) (h : i < n) :
    bitAt word i n = .ok (word.testBit (n - 1 - i)).toNat := by
  have hplace : (n : Int) - 1 - i = ((n - 1 - i : Nat) : Int) := by omega
  have hshift : (((word : Int) >>> (n - 1 - i)) % 2).toNat =
      (word >>> (n - 1 - i)) % 2 := by
    have hcast : (word : Int) >>> (n - 1 - i) =
        ((word >>> (n - 1 - i) : Nat) : Int) := rfl
    omega
  unfold bitAt
  rw [hplace]
  show Except.ok _ = _
  rw [hshift, Nat.toNat_testBit, Nat.shiftRight_eq_div_pow]

/-- The mask of a position has the one bit. So masking a word leaves
something exactly if that bit is set. -/
theorem bitMask_eq (h : i < n) : bitMask i n = .ok (2 ^ (n - 1 - i)) := by
  have hplace : ((n : Int) - 1 - i).toNat = n - 1 - i := by omega
  have hcheck : checkPosition i n = .ok () := if_pos (by omega)
  unfold bitMask
  rw [hcheck, hplace, Nat.one_shiftLeft]

theorem and_two_pow_ne_zero_iff (word k : Nat) :
    word &&& 2 ^ k ≠ 0 ↔ word.testBit k = true := by
  rw [Nat.and_two_pow]
  have hpos : 0 < 2 ^ k := Nat.two_pow_pos k
  cases word.testBit k <;> simp

-- =============================================================== outcome

/-- At every position of a value, its bit sequence, its word and the
mask of the position show the same bit. A value is packed again from
its bits; and of any bits, eight go to a byte, and taken apart again
they are as they were, with zeros in front of a last group that was
not full. -/
theorem bits_agree :
    (∀ (b : Bytes) (i : Nat), i < 8 * b.size →
      ∃ bit mask, b.toBits[i]? = some bit ∧
      bitAt b.toWord i ↑(8 * b.size) = .ok bit.toNat ∧
      bitMask i ↑(8 * b.size) = .ok mask ∧
      (b.toWord &&& mask ≠ 0 ↔ bit = true)) ∧
    (∀ b : Bytes, ofBits b.toBits = b) ∧
    ∀ bits : List Bool, (ofBits bits).size = (bits.length + 7) / 8 ∧
      toBits (ofBits bits) = filled bits := by
  refine ⟨?_, ofBits_toBits, fun bits => ⟨size_ofBits bits, toBits_ofBits bits⟩⟩
  intro b i hi
  exact ⟨_, _, getElem?_toBits b hi, bitAt_eq b.toWord hi, bitMask_eq hi,
    and_two_pow_ne_zero_iff _ _⟩

/-- The last bit of two bytes, and ten bits, of which two are left
over. -/
theorem bits_agree_ten :
    (∃ bit mask, (toBits #[0, 1])[15]? = some bit ∧
      bitAt (toWord #[0, 1]) 15 16 = .ok bit.toNat ∧
      bitMask 15 16 = .ok mask ∧ (toWord #[0, 1] &&& mask ≠ 0 ↔ bit = true)) ∧
    toBits (ofBits [true, false, true, false, false, false, false,
      false, true, true]) =
      [true, false, true, false, false, false, false, false,
        false, false, false, false, false, false, true, true] := by
  obtain ⟨hviews, -, hpacked⟩ := bits_agree
  exact ⟨hviews #[0, 1] 15 (by decide), (hpacked _).2⟩

end XorSpan.Bytes
