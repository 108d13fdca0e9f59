/-
UTF-8 read as it was written: the bytes of any text are decoded to that
text (`decodeUtf8_toUTF8`).

A character is written in one to four bytes by its number, and each width
has first bytes of its own (`utf8Step_two` to `utf8Step_four`). What the
reader refuses besides never comes up in writing: no number is written in
a longer form than it needs, and no character has the number of a
surrogate or one beyond U+10FFFF.
-/
import XorSpan.Text.Utf8
import XorSpan.Proofs.Texts

namespace XorSpan.Text

variable {c : Char} {first second third fourth : UInt8}
    {rest : List UInt8} {v n : Nat}

-- ================================================================= bytes

/-- A number below 256 is a byte. -/
theorem toNat_ofNat (h : n < 256) : (UInt8.ofNat n).toNat = n := by
  rw [UInt8.toNat_ofNat']
  exact Nat.mod_eq_of_lt h

/-- The byte may follow a first byte. -/
def Continues (x : UInt8) : Prop := 0x80 ≤ x.toNat ∧ x.toNat < 0xc0

/-- Six bits with the mark `10` in front make a byte that continues a
character. -/
theorem continues_ofNat (h : n < 64) : Continues (UInt8.ofNat (n + 128)) := by
  unfold Continues
  rw [toNat_ofNat (by omega)]
  omega

/-- The decoder takes for a continuation what is between 0x80 and
0xbf: the mask it uses leaves the two highest bits. -/
theorem isContinuation_of_continues (h : Continues second) :
    isContinuation second = true := by
  unfold isContinuation
  rw [Bool.and_eq_true, decide_eq_true_eq, decide_eq_true_eq]
  exact h

/-- The byte is in the range that this first byte leaves to a second. -/
structure Seconds (first second : UInt8) : Prop where
  continues : Continues second
  short : first.toNat = 0xe0 → 0xa0 ≤ second.toNat
  surrogate : first.toNat = 0xed → second.toNat < 0xa0
  shorter : first.toNat = 0xf0 → 0x90 ≤ second.toNat
  beyond : first.toNat = 0xf4 → second.toNat < 0x90

/-- And it takes for a second byte what may stand behind the first. Of
the longer characters some have less room there, so that no character
is written longer than need be and none is a surrogate. -/
theorem isSecond_of_seconds (h : Seconds first second) :
    isSecond first second = true := by
  unfold isSecond
  rw [isContinuation_of_continues h.continues, Bool.true_and]
  split
  · next heq => exact decide_eq_true (h.short (by rw [heq]; rfl))
  · split
    · next heq => exact decide_eq_true (h.surrogate (by rw [heq]; rfl))
    · split
      · next heq => exact decide_eq_true (h.shorter (by rw [heq]; rfl))
      · split
        · next heq => exact decide_eq_true (h.beyond (by rw [heq]; rfl))
        · rfl

/-- The payload bits of a byte that follows. The mark in its two
highest bits is taken off. -/
theorem toNat_payload (x : UInt8) : (x &&& 0x3f).toNat = x.toNat % 64 := by
  rw [UInt8.toNat_and]
  exact Nat.and_two_pow_sub_one_eq_mod x.toNat 6

-- ================================================================ widths

/-- A byte below 0x80 is a character by itself. -/
theorem utf8Step_one (h : first.toNat < 0x80) (rest : List UInt8) :
    utf8Step first rest = .char (Char.ofNat first.toNat) 1 := by
  unfold utf8Step
  exact if_pos (UInt8.lt_iff_toNat_lt.2 h)

/-- Two bytes have eleven bits, five of them in the first. -/
theorem utf8Step_two (h : 0xc2 ≤ first.toNat ∧ first.toNat < 0xe0)
    (hsecond : Continues second) (rest : List UInt8) :
    utf8Step first (second :: rest) =
      .char (Char.ofNat (first.toNat % 32 * 64 + second.toNat % 64)) 2 := by
  have hhead : (first &&& 0x1f).toNat = first.toNat % 32 := by
    rw [UInt8.toNat_and]
    exact Nat.and_two_pow_sub_one_eq_mod first.toNat 5
  unfold utf8Step
  simp only [UInt8.lt_iff_toNat_lt, UInt8.reduceToNat]
  rw [if_neg (by omega), if_neg (by omega), if_pos h.2]
  simp only [isContinuation_of_continues hsecond, Bool.not_true,
    Bool.false_eq_true, if_false, joinPayload, List.foldl_cons, List.foldl_nil,
    hhead, toNat_payload]

/-- Three bytes have sixteen bits, four of them in the first. -/
theorem utf8Step_three (h : 0xe0 ≤ first.toNat ∧ first.toNat < 0xf0)
    (hsecond : Seconds first second) (hthird : Continues third)
    (rest : List UInt8) :
    utf8Step first (second :: third :: rest) =
      .char (Char.ofNat ((first.toNat % 16 * 64 + second.toNat % 64) * 64 +
        third.toNat % 64)) 3 := by
  have hhead : (first &&& 0x0f).toNat = first.toNat % 16 := by
    rw [UInt8.toNat_and]
    exact Nat.and_two_pow_sub_one_eq_mod first.toNat 4
  unfold utf8Step
  simp only [UInt8.lt_iff_toNat_lt, UInt8.reduceToNat]
  rw [if_neg (by omega), if_neg (by omega), if_neg (by omega), if_pos h.2]
  simp only [isSecond_of_seconds hsecond,
    isContinuation_of_continues hthird, Bool.not_true, Bool.false_eq_true,
    if_false, joinPayload, List.foldl_cons, List.foldl_nil,
    hhead, toNat_payload]

/-- Four bytes have twenty-one bits, three of them in the first. -/
theorem utf8Step_four (h : 0xf0 ≤ first.toNat ∧ first.toNat < 0xf5)
    (hsecond : Seconds first second) (hthird : Continues third)
    (hfourth : Continues fourth) (rest : List UInt8) :
    utf8Step first (second :: third :: fourth :: rest) =
      .char (Char.ofNat (((first.toNat % 8 * 64 + second.toNat % 64) * 64 +
        third.toNat % 64) * 64 + fourth.toNat % 64)) 4 := by
  have hhead : (first &&& 0x07).toNat = first.toNat % 8 := by
    rw [UInt8.toNat_and]
    exact Nat.and_two_pow_sub_one_eq_mod first.toNat 3
  unfold utf8Step
  simp only [UInt8.lt_iff_toNat_lt, UInt8.reduceToNat]
  rw [if_neg (by omega), if_neg (by omega), if_neg (by omega),
    if_neg (by omega), if_pos h.2]
  simp only [isSecond_of_seconds hsecond, isContinuation_of_continues hthird,
    isContinuation_of_continues hfourth, Bool.not_true, Bool.false_eq_true,
    if_false, joinPayload, List.foldl_cons, List.foldl_nil,
    hhead, toNat_payload]

-- ============================================================ characters

/-- A character is read off the front of what it was written to. -/
inductive ReadOff (c : Char) (rest : List UInt8) : List UInt8 → Prop where
  | intro {first : UInt8} {later : List UInt8}
      (step : utf8Step first (later ++ rest) = .char c (later.length + 1)) :
      ReadOff c rest (first :: later)

theorem ofNat_of_eq (c : Char) (h : n = c.toNat) : Char.ofNat n = c := by
  rw [h, Char.ofNat_toNat]

/-- One lemma for each width, in which the bits of the character's
number are put together again out of those of its bytes. The first has
one byte, which is the number. -/
theorem readOff_one (h : c.toNat ≤ 0x7f) :
    ReadOff c rest (String.utf8EncodeChar c) := by
  have hbytes : String.utf8EncodeChar c = [UInt8.ofNat c.toNat] := if_pos h
  have hfirst : (UInt8.ofNat c.toNat).toNat = c.toNat := toNat_ofNat (by omega)
  rw [hbytes]
  refine .intro ?_
  rw [List.nil_append, utf8Step_one (by omega), ofNat_of_eq c hfirst]
  rfl

/-- From 0x80 to 0x7ff a character has two bytes. -/
theorem readOff_two (h : ¬c.toNat ≤ 0x7f) (h' : c.toNat ≤ 0x7ff) :
    ReadOff c rest (String.utf8EncodeChar c) := by
  have hbytes : String.utf8EncodeChar c =
      [UInt8.ofNat (c.toNat / 64 % 32 + 192),
        UInt8.ofNat (c.toNat % 64 + 128)] :=
    (if_neg h).trans (if_pos h')
  have hfirst : (UInt8.ofNat (c.toNat / 64 % 32 + 192)).toNat =
      c.toNat / 64 % 32 + 192 :=
    toNat_ofNat (by omega)
  have hsecond : (UInt8.ofNat (c.toNat % 64 + 128)).toNat =
      c.toNat % 64 + 128 :=
    toNat_ofNat (by omega)
  rw [hbytes]
  refine .intro ?_
  rw [List.singleton_append,
    utf8Step_two (by omega) (continues_ofNat (by omega)),
    ofNat_of_eq c (by omega)]
  rfl

/-- From 0x800 to 0xffff it has three. Surrogates are in that range,
and no character is one. -/
theorem readOff_three (h : ¬c.toNat ≤ 0x7ff) (h' : c.toNat ≤ 0xffff) :
    ReadOff c rest (String.utf8EncodeChar c) := by
  have hvalid : c.toNat < 0xd800 ∨ 0xdfff < c.toNat ∧
      c.toNat < 0x110000 := c.valid
  have hone : ¬c.toNat ≤ 0x7f := by omega
  have hbytes : String.utf8EncodeChar c =
      [UInt8.ofNat (c.toNat / 4096 % 16 + 224),
       UInt8.ofNat (c.toNat / 64 % 64 + 128),
       UInt8.ofNat (c.toNat % 64 + 128)] :=
    (if_neg hone).trans ((if_neg h).trans (if_pos h'))
  have hfirst : (UInt8.ofNat (c.toNat / 4096 % 16 + 224)).toNat =
      c.toNat / 4096 % 16 + 224 :=
    toNat_ofNat (by omega)
  have hsecond : (UInt8.ofNat (c.toNat / 64 % 64 + 128)).toNat =
      c.toNat / 64 % 64 + 128 :=
    toNat_ofNat (by omega)
  have hthird : (UInt8.ofNat (c.toNat % 64 + 128)).toNat = c.toNat % 64 + 128 :=
    toNat_ofNat (by omega)
  have hseconds : Seconds (UInt8.ofNat (c.toNat / 4096 % 16 + 224))
      (UInt8.ofNat (c.toNat / 64 % 64 + 128)) := by
    refine ⟨continues_ofNat (by omega), ?_, ?_, ?_, ?_⟩ <;> rw [hfirst,
      hsecond] <;> omega
  rw [hbytes]
  refine .intro ?_
  rw [List.cons_append, List.singleton_append,
    utf8Step_three (by omega) hseconds (continues_ofNat (by omega)),
    ofNat_of_eq c (by omega)]
  rfl

/-- Above there are four, and no number beyond 0x10ffff. -/
theorem readOff_four (h : ¬c.toNat ≤ 0xffff) :
    ReadOff c rest (String.utf8EncodeChar c) := by
  have hvalid : c.toNat < 0xd800 ∨ 0xdfff < c.toNat ∧
      c.toNat < 0x110000 := c.valid
  have hone : ¬c.toNat ≤ 0x7f := by omega
  have htwo : ¬c.toNat ≤ 0x7ff := by omega
  have hbytes : String.utf8EncodeChar c =
      [UInt8.ofNat (c.toNat / 262144 % 8 + 240),
       UInt8.ofNat (c.toNat / 4096 % 64 + 128),
       UInt8.ofNat (c.toNat / 64 % 64 + 128),
       UInt8.ofNat (c.toNat % 64 + 128)] :=
    (if_neg hone).trans ((if_neg htwo).trans (if_neg h))
  have hfirst : (UInt8.ofNat (c.toNat / 262144 % 8 + 240)).toNat =
      c.toNat / 262144 % 8 + 240 :=
    toNat_ofNat (by omega)
  have hsecond : (UInt8.ofNat (c.toNat / 4096 % 64 + 128)).toNat =
      c.toNat / 4096 % 64 + 128 :=
    toNat_ofNat (by omega)
  have hthird : (UInt8.ofNat (c.toNat / 64 % 64 + 128)).toNat =
      c.toNat / 64 % 64 + 128 :=
    toNat_ofNat (by omega)
  have hfourth : (UInt8.ofNat (c.toNat % 64 + 128)).toNat =
      c.toNat % 64 + 128 :=
    toNat_ofNat (by omega)
  have hseconds : Seconds (UInt8.ofNat (c.toNat / 262144 % 8 + 240))
      (UInt8.ofNat (c.toNat / 4096 % 64 + 128)) := by
    refine ⟨continues_ofNat (by omega), ?_, ?_, ?_, ?_⟩ <;> rw [hfirst,
      hsecond] <;> omega
  rw [hbytes]
  refine .intro ?_
  rw [List.cons_append, List.cons_append, List.singleton_append,
    utf8Step_four (by omega) hseconds (continues_ofNat (by omega))
      (continues_ofNat (by omega)),
    ofNat_of_eq c (by omega)]
  rfl

/-- Whatever its width, a character is read off the front of its
bytes. What follows it may be anything. -/
theorem readOff_utf8EncodeChar (c : Char) (rest : List UInt8) :
    ReadOff c rest (String.utf8EncodeChar c) := by
  by_cases hone : c.toNat ≤ 0x7f
  · exact readOff_one hone
  · by_cases htwo : c.toNat ≤ 0x7ff
    · exact readOff_two hone htwo
    · by_cases hthree : c.toNat ≤ 0xffff
      · exact readOff_three htwo hthree
      · exact readOff_four hthree

-- ================================================================= texts

/-- So the decoder takes the character and goes on behind its bytes,
from wherever it stands. -/
theorem decodeFrom_utf8EncodeChar (c : Char) (position : Nat) (read : List Char)
    (rest : List UInt8) :
    decodeFrom position read (String.utf8EncodeChar c ++ rest) =
      decodeFrom (position + (String.utf8EncodeChar c).length) (c ::
        read) rest := by
  have hread := readOff_utf8EncodeChar c rest
  generalize String.utf8EncodeChar c = bytes at hread
  cases hread with
  | @intro first later step =>
    rw [List.cons_append, decodeFrom, step]
    dsimp only
    rw [Nat.add_sub_cancel, List.drop_left, List.length_cons]

/-- The bytes of several characters are read as these, up to the end.
The induction is on the characters, with the position and what has
been read before kept free. -/
theorem decodeFrom_flatMap (cs : List Char) (position : Nat)
    (read : List Char) :
    decodeFrom position read (cs.flatMap String.utf8EncodeChar) =
      (read.reverse ++ cs, .complete) := by
  induction cs generalizing position read with
  | nil => rw [List.flatMap_nil, decodeFrom, List.append_nil]
  | cons c cs ih =>
    rw [List.flatMap_cons, decodeFrom_utf8EncodeChar, ih, List.reverse_cons,
      List.append_assoc]
    rfl

/-- Every text is read as it was written. So writing a file and
reading it back loses nothing. -/
theorem decodeUtf8_toUTF8 (s : String) :
    decodeUtf8 s.toUTF8.toList = (s.toList, .complete) := by
  unfold decodeUtf8
  rw [toList_toUTF8, decodeFrom_flatMap]
  rfl

end XorSpan.Text
