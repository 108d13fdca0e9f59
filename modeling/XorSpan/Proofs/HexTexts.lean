/-
Hex texts and the values they spell. A text is read exactly if it is hex
text, and what is read, written again, is the text in upper case; what is
written is read back, in either case of its letters (`hexTexts_outcome`).

Written texts compare as their values do, so arranging values by their
texts arranges them byte by byte.
-/
import XorSpan.Proofs.Graph.Reduction
import XorSpan.Proofs.HashLists

namespace XorSpan

namespace Bytes

variable {c : Char} {cs : List Char} {xs : List UInt8} {a b : Bytes}
    {t : String} {d : Nat}

-- =============================================================== reading

/-- A text is read as the bytes that it spells, and the empty text is
not read. -/
theorem ofHex_eq_ok_iff :
    ofHex (some t) = .ok b ↔ t ≠ "" ∧ Spells t.toList b.toList := by
  rw [← ofHex?_eq_some_iff]
  unfold ofHex
  rw [Option.bind_some]
  cases ofHex? t with
  | none => exact iff_of_false (fun h => nomatch h) fun h => nomatch h
  | some value => rw [Except.ok.injEq, Option.some.injEq]

theorem toList_ne_nil_iff : t.toList ≠ [] ↔ t ≠ "" :=
  String.toList_eq_nil_iff.not

/-- So hex text is read, and nothing else. -/
theorem exists_ofHex_iff :
    (∃ b, ofHex (some t) = .ok b) ↔ HexText t.toList := by
  constructor
  · intro hread
    obtain ⟨b, hb⟩ := hread
    obtain ⟨hne, hspells⟩ := ofHex_eq_ok_iff.1 hb
    exact hexText_of_spells hspells (toList_ne_nil_iff.2 hne)
  · intro h
    obtain ⟨xs, hxs⟩ := exists_spells _ h.even h.digits
    exact ⟨xs.toArray, ofHex_eq_ok_iff.2 ⟨toList_ne_nil_iff.1 h.nonempty, hxs⟩⟩

-- ================================================================= cases

/-- The digits of either case are those of upper case in upper case, -/
theorem map_toUpper_digits : lowerDigits.map Char.toUpper = upperDigits ∧
    upperDigits.map Char.toUpper = upperDigits := by decide

/-- and those of lower case in lower case. -/
theorem map_toLower_digits : lowerDigits.map Char.toLower = lowerDigits ∧
    upperDigits.map Char.toLower = lowerDigits := by decide

/-- Written digits are those in upper case. -/
theorem upperDigits_eq : upperDigits = List.ofFn digitOf := by decide

/-- In upper case a digit is as it is written. So all that is written
is what reading would take in either case. -/
theorem toUpper_of_isDigit (h : IsDigit c d) :
    c.toUpper = digitOf ⟨d, h.lt⟩ := by
  have hupper : upperDigits[d]? = some c.toUpper := by
    rcases h with hc | hc
    · rw [← map_toUpper_digits.1, List.getElem?_map, hc, Option.map_some]
    · rw [← map_toUpper_digits.2, List.getElem?_map, hc, Option.map_some]
  rw [upperDigits_eq, List.getElem?_ofFn, dif_pos h.lt] at hupper
  exact (Option.some.inj hupper).symm

/-- In lower case a digit stands for the same number. The sixteen of
each case are gone through one by one. -/
theorem isDigit_toLower (h : IsDigit c d) : IsDigit c.toLower d := by
  left
  rcases h with hc | hc
  · rw [← map_toLower_digits.1, List.getElem?_map, hc, Option.map_some]
  · rw [← map_toLower_digits.2, List.getElem?_map, hc, Option.map_some]

/-- What a text spells is written as the text in upper case. The
induction goes along the spelling, two characters at a time. -/
theorem map_toUpper_of_spells (h : Spells cs xs) :
    cs.map Char.toUpper = xs.flatMap digitsOf := by
  induction h with
  | nil => rfl
  | @pair a b high low x cs xs first second byte _ ih =>
    have hbound := first.lt
    have hbound' := second.lt
    have hhigh : highHalf x = ⟨high, first.lt⟩ :=
      Fin.ext (by unfold highHalf; dsimp only; omega)
    have hlow : lowHalf x = ⟨low, second.lt⟩ :=
      Fin.ext (by unfold lowHalf; dsimp only; omega)
    rw [List.map_cons, List.map_cons, ih, toUpper_of_isDigit first,
      toUpper_of_isDigit second, ← hhigh, ← hlow]
    rfl

/-- So a text in lower case spells what it did. -/
theorem spells_map_toLower (h : Spells cs xs) :
    Spells (cs.map Char.toLower) xs := by
  induction h with
  | nil => exact .nil
  | pair first second byte _ ih =>
    exact .pair (isDigit_toLower first) (isDigit_toLower second) byte ih

/-- A value that was read is written as its text in upper case. No
blank or sign could be lost, since none is accepted. -/
theorem toHex_of_ofHex (h : ofHex (some t) = .ok b) : b.toHex = t.toUpper := by
  apply String.toList_inj.1
  unfold toHex String.toUpper
  rw [String.toList_ofList, String.toList_map, hexChars_eq,
    map_toUpper_of_spells (ofHex_eq_ok_iff.1 h).2]

-- =============================================================== writing

/-- A value is written as a text that spells it. -/
theorem spells_toHex (b : Bytes) : Spells b.toHex.toList b.toList := by
  unfold toHex
  rw [String.toList_ofList]
  exact spells_hexChars b

/-- Text that spells some bytes is not empty. The empty text is the
only one that spells no bytes. -/
theorem ne_empty_of_spells (h : Spells t.toList b.toList) (hb : b.size ≠ 0) :
    t ≠ "" := by
  intro hempty
  subst hempty
  have hlength := length_of_spells h
  rw [String.toList_empty, List.length_nil, Array.length_toList] at hlength
  omega

/-- A value that is not empty is read back from its text, -/
theorem ofHex_toHex (h : b.size ≠ 0) : ofHex (some b.toHex) = .ok b :=
  ofHex_eq_ok_iff.2 ⟨ne_empty_of_spells (spells_toHex b) h, spells_toHex b⟩

/-- and from its text in lower case. -/
theorem ofHex_toLower_toHex (h : b.size ≠ 0) :
    ofHex (some b.toHex.toLower) = .ok b := by
  have hspells : Spells b.toHex.toLower.toList b.toList := by
    unfold String.toLower
    rw [String.toList_map]
    exact spells_map_toLower (spells_toHex b)
  exact ofHex_eq_ok_iff.2 ⟨ne_empty_of_spells hspells h, hspells⟩

end Bytes

-- =============================================================== sorting

namespace Reduction

variable {values sorted : List Bytes}

/-- Arranged by their texts, values are arranged byte by byte, and
there is only one such arrangement. -/
theorem eq_sortByHex_iff : sorted = sortByHex values ↔
    sorted.Perm values ∧ sorted.Pairwise fun a b => a.toList ≤ b.toList := by
  have hbytes : (sortByHex values).Pairwise fun a b => a.toList ≤ b.toList :=
    (sorted_sortByHex values).imp fun h => (Bytes.toHex_le_iff _ _).1 h
  constructor
  · intro h
    rw [h]
    exact ⟨sortByHex_perm values, hbytes⟩
  · intro h
    obtain ⟨hperm, hsorted⟩ := h
    refine List.Perm.eq_of_pairwise ?_ hsorted hbytes
      (hperm.trans (sortByHex_perm values).symm)
    intro a b _ _ hab hba
    exact Array.toList_inj.1 (List.le_antisymm hab hba)

end Reduction

namespace Bytes

-- =============================================================== outcome

/-- Exactly hex text is read, and written again it is the text in
upper case. Every value that is not empty is read back from its text,
with the letters in either case. Texts are in the order of their
values, and so the arrangement of values by their texts is the one in
which no value comes before a smaller one. -/
theorem hexTexts_outcome :
    (∀ t : String, ((∃ b, ofHex (some t) = .ok b) ↔ HexText t.toList) ∧
      ∀ b, ofHex (some t) = .ok b → b.toHex = t.toUpper) ∧
    (∀ b : Bytes, b.size ≠ 0 →
      ofHex (some b.toHex) = .ok b ∧ ofHex (some b.toHex.toLower) = .ok b) ∧
    (∀ a b : Bytes, a.toList < b.toList ↔ a.toHex < b.toHex) ∧
    ∀ values sorted : List Bytes, sorted = Reduction.sortByHex values ↔
      sorted.Perm values ∧ sorted.Pairwise fun a b => a.toList ≤ b.toList :=
  ⟨fun _ => ⟨exists_ofHex_iff, fun _ => toHex_of_ofHex⟩,
    fun _ h => ⟨ofHex_toHex h, ofHex_toLower_toHex h⟩,
    fun a b => (toHex_lt_iff a b).symm, fun _ _ => Reduction.eq_sortByHex_iff⟩

/-- A letter in lower case, and a longer value before a shorter one.
The longer one comes first, as its first byte is smaller. -/
theorem hexTexts_outcome_two :
    ofHex (some (toHex #[0, 171]).toLower) = .ok #[0, 171] ∧
    toHex #[0, 171] = (toHex #[0, 171]).toLower.toUpper ∧
    toHex #[0, 171] < toHex #[1] := by
  obtain ⟨hreading, hback, horder, -⟩ := hexTexts_outcome
  have hlower := (hback #[0, 171] (by decide)).2
  exact ⟨hlower, (hreading _).2 _ hlower, (horder _ _).1 (by decide)⟩

end Bytes

end XorSpan
