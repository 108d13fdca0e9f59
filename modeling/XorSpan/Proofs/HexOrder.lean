/-
The order of hex texts. Two digits stand for a byte, the high half first,
and the sixteen digits are in the order of what they stand for; so texts
are in the order of the values they spell, byte by byte from the left,
and no two values have the same text.
-/
import XorSpan.Bytes.Hex

namespace XorSpan.Bytes

/-- The digit of a number below sixteen. -/
def digitOf (d : Fin 16) : Char := hexDigit (UInt8.ofNat d)

/-- The digits are in the order of their numbers: the letters come
after the numerals. -/
theorem digitOf_lt_iff : ∀ d e : Fin 16, digitOf d < digitOf e ↔
    d < e := by decide

/-- So no two of them are the same. -/
theorem digitOf_inj : ∀ d e : Fin 16, digitOf d = digitOf e → d = e := by decide

def highHalf (x : UInt8) : Fin 16 :=
  ⟨x.toNat / 16, by have := x.toNat_lt; omega⟩

def lowHalf (x : UInt8) : Fin 16 := ⟨x.toNat % 16, Nat.mod_lt _ (by decide)⟩

/-- The first digit of a byte is that of its high half, -/
theorem hexDigit_high (x : UInt8) :
    hexDigit (x >>> 4) = digitOf (highHalf x) := by
  unfold digitOf highHalf
  congr 1
  apply UInt8.toNat_inj.1
  have hlt := x.toNat_lt
  simp [Nat.shiftRight_eq_div_pow]
  omega

/-- and the second that of its low half. -/
theorem hexDigit_low (x : UInt8) :
    hexDigit (x &&& 15) = digitOf (lowHalf x) := by
  unfold digitOf lowHalf
  congr 1
  apply UInt8.toNat_inj.1
  have hand : x.toNat &&& 15 = x.toNat % 16 :=
    Nat.and_two_pow_sub_one_eq_mod x.toNat 4
  simp [hand]
  omega

/-- A byte is told by its halves. It is sixteen times the one and the
other. -/
theorem eq_of_halves {x y : UInt8} (hhigh : highHalf x = highHalf y)
    (hlow : lowHalf x = lowHalf y) : x = y := by
  have hdiv : x.toNat / 16 = y.toNat / 16 := congrArg Fin.val hhigh
  have hmod : x.toNat % 16 = y.toNat % 16 := congrArg Fin.val hlow
  apply UInt8.toNat_inj.1
  omega

/-- Bytes are in the order of their high halves, and where these are
equal of their low ones. -/
theorem lt_iff_halves (x y : UInt8) :
    x < y ↔ highHalf x < highHalf y ∨ highHalf x = highHalf y ∧
    lowHalf x < lowHalf y := by
  rw [UInt8.lt_iff_toNat_lt, Fin.lt_def, Fin.ext_iff, Fin.lt_def]
  unfold highHalf lowHalf
  dsimp only
  omega

/-- The two digits of a byte. -/
def digitsOf (x : UInt8) : List Char :=
  [digitOf (highHalf x), digitOf (lowHalf x)]

/-- Hex text is two digits for each byte. -/
theorem hexChars_eq (b : Bytes) : b.hexChars = b.toList.flatMap digitsOf := by
  have hdigits :
      (fun (x : UInt8) => [hexDigit (x >>> 4), hexDigit (x &&& 15)]) =
        digitsOf := by
    funext x
    rw [hexDigit_high, hexDigit_low]
    rfl
  unfold hexChars
  rw [hdigits]

/-- There is nothing else in it. -/
theorem exists_digitOf_of_mem_hexChars {b : Bytes} {c : Char}
    (h : c ∈ b.hexChars) :
    ∃ d, c = digitOf d := by
  rw [hexChars_eq] at h
  obtain ⟨x, -, hc⟩ := List.mem_flatMap.1 h
  rcases List.mem_cons.1 hc with hc | hc
  · exact ⟨highHalf x, hc⟩
  · exact ⟨lowHalf x, List.mem_singleton.1 hc⟩

/-- Digit by digit is byte by byte. The first digit that differs is in
the first byte that does. -/
theorem flatMap_digitsOf_lt_iff (xs ys : List UInt8) :
    xs.flatMap digitsOf < ys.flatMap digitsOf ↔ xs < ys := by
  have hnil (xs : List UInt8) :
      ¬xs.flatMap digitsOf < [].flatMap digitsOf ∧ ¬xs < [] :=
    ⟨List.not_lt_nil _, List.not_lt_nil _⟩
  induction xs generalizing ys with
  | nil =>
    cases ys with
    | nil => exact iff_of_false (hnil []).1 (hnil []).2
    | cons y ys => exact iff_of_true (List.nil_lt_cons ..) (List.nil_lt_cons ..)
  | cons x xs ih =>
    cases ys with
    | nil => exact iff_of_false (hnil _).1 (hnil _).2
    | cons y ys =>
      simp only [List.flatMap_cons, digitsOf, List.cons_append, List.nil_append,
        List.cons_lt_cons_iff, digitOf_lt_iff, lt_iff_halves, ih ys]
      constructor
      · rintro (hlt | ⟨heq, hlt | ⟨heq', hlt⟩⟩)
        · exact .inl (.inl hlt)
        · exact .inl (.inr ⟨digitOf_inj _ _ heq, hlt⟩)
        · exact .inr ⟨eq_of_halves (digitOf_inj _ _ heq)
            (digitOf_inj _ _ heq'), hlt⟩
      · rintro ((hlt | ⟨heq, hlt⟩) | ⟨heq, hlt⟩)
        · exact .inl hlt
        · exact .inr ⟨congrArg digitOf heq, .inl hlt⟩
        · exact .inr ⟨by rw [heq], .inr ⟨by rw [heq], hlt⟩⟩

/-- Under any sixteen digits, texts with two digits for a byte tell
the bytes. -/
theorem flatMap_halves_inj {f : Fin 16 → Char} (hf : ∀ d e, f d = f e → d = e)
    {xs ys : List UInt8}
    (h : xs.flatMap (fun x => [f (highHalf x), f (lowHalf x)]) =
      ys.flatMap fun x => [f (highHalf x), f (lowHalf x)]) : xs = ys := by
  induction xs generalizing ys with
  | nil =>
    cases ys with
    | nil => rfl
    | cons y ys => cases h
  | cons x xs ih =>
    cases ys with
    | nil => cases h
    | cons y ys =>
      simp only [List.flatMap_cons, List.cons_append, List.nil_append,
        List.cons.injEq] at h
      obtain ⟨hhigh, hlow, hrest⟩ := h
      rw [eq_of_halves (hf _ _ hhigh) (hf _ _ hlow), ih hrest]

/-- So the digits of a value tell its bytes. -/
theorem flatMap_digitsOf_inj {xs ys : List UInt8}
    (h : xs.flatMap digitsOf = ys.flatMap digitsOf) :
    xs = ys :=
  flatMap_halves_inj digitOf_inj h

/-- Values are told apart by their hex texts, also where their lengths
differ. -/
theorem toHex_inj {a b : Bytes} (h : a.toHex = b.toHex) : a = b := by
  have hchars : a.hexChars = b.hexChars := String.ofList_injective h
  rw [hexChars_eq, hexChars_eq] at hchars
  exact Array.toList_inj.1 (flatMap_digitsOf_inj hchars)

/-- And their texts are in the order of their bytes, whatever their
lengths: what is the beginning of another comes before it. -/
theorem toHex_lt_iff (a b : Bytes) :
    a.toHex < b.toHex ↔ a.toList < b.toList := by
  have htexts : a.toHex < b.toHex ↔ a.hexChars < b.hexChars := by
    show a.toHex.toList < b.toHex.toList ↔ _
    unfold toHex
    rw [String.toList_ofList, String.toList_ofList]
  rw [htexts, hexChars_eq, hexChars_eq]
  exact flatMap_digitsOf_lt_iff a.toList b.toList

/-- Hex texts are in the order of their values. So sorting by texts is
sorting by bytes. -/
theorem toHex_le_iff (a b : Bytes) :
    a.toHex ≤ b.toHex ↔ a.toList ≤ b.toList := by
  rw [← String.not_lt, toHex_lt_iff]
  exact List.not_lt

/-- Values in the order of their texts, each once, are in strict
order. That is the order in which an answer is given. -/
theorem toList_lt_of_toHex_le {a b : Bytes}
    (hle : a.toHex ≤ b.toHex) (hne : a ≠ b) :
    a.toList < b.toList := by
  rw [← toHex_lt_iff]
  refine Decidable.byContradiction fun hlt => ?_
  exact hne (toHex_inj (String.le_antisymm hle (String.not_lt.1 hlt)))

end XorSpan.Bytes
