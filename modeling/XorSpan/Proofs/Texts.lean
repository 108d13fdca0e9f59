/-
Texts as the bytes they are written as: a text that is plain, all of its
characters below 128, has one byte a character. And what trimming a line
takes off it: blanks at both ends, and no more (`strips_iff`).
-/
import XorSpan.Text.Blank

namespace XorSpan.Text

variable {s t : String} {c : Char} {cs : List Char}

-- ================================================================= bytes

theorem toListLoop_eq (bytes : ByteArray) (i : Nat) (read : List UInt8) :
    ByteArray.toList.loop bytes i read =
      read.reverse ++ bytes.data.toList.drop i := by
  induction hleft : bytes.size - i generalizing i read with
  | zero =>
    have hend : bytes.data.toList.length ≤ i := by
      rw [Array.length_toList]
      exact Nat.sub_eq_zero_iff_le.1 hleft
    rw [ByteArray.toList.loop, if_neg (by omega), List.drop_eq_nil_of_le hend,
      List.append_nil]
  | succ left ih =>
    have hi : i < bytes.size := by omega
    have hget : bytes.get! i = bytes.data.toList[i] := by
      show bytes.data[i]! = _
      rw [getElem!_pos bytes.data i hi, Array.getElem_toList]
    rw [ByteArray.toList.loop, if_pos hi, ih (i + 1) _ (by omega), hget,
      List.reverse_cons, List.append_assoc,
      List.drop_eq_getElem_cons (l := bytes.data.toList) hi]
    rfl

theorem toList_eq (bytes : ByteArray) : bytes.toList = bytes.data.toList :=
  toListLoop_eq bytes 0 []

/-- The bytes of a text, character by character. So bytes can be
counted and compared by characters. -/
theorem toList_toUTF8 (s : String) :
    s.toUTF8.toList = s.toList.flatMap String.utf8EncodeChar := by
  have hbytes :
      s.toUTF8 = (s.toList.flatMap String.utf8EncodeChar).toByteArray := by
    rw [String.toUTF8_eq_toByteArray]
    conv => lhs; rw [← String.ofList_toList (s := s)]
    exact String.toByteArray_ofList
  rw [toList_eq, hbytes, List.data_toByteArray]

theorem toList_toUTF8_inj : s.toUTF8.toList = t.toUTF8.toList ↔ s = t := by
  rw [toList_eq, toList_eq, Array.toList_inj, ← ByteArray.ext_iff]
  exact String.toByteArray_inj

/-- All characters are below 128. -/
def Plain (cs : List Char) : Prop := ∀ c ∈ cs, c.toNat < 128

instance (cs : List Char) : Decidable (Plain cs) :=
  List.decidableBAll (fun c : Char => c.toNat < 128) cs

theorem utf8EncodeChar_of_lt (h : c.toNat < 128) :
    String.utf8EncodeChar c = [UInt8.ofNat c.toNat] := by
  unfold String.utf8EncodeChar
  exact if_pos (Nat.le_of_lt_succ h)

/-- Plain text takes a byte to a character. Hex text and line feeds
are plain. -/
theorem length_toUTF8_of_plain (h : Plain s.toList) :
    s.toUTF8.toList.length = s.toList.length := by
  have hone : s.toList.map (fun c => (String.utf8EncodeChar c).length) =
      s.toList.map fun _ => 1 :=
    List.map_congr_left fun c hc => by
      rw [utf8EncodeChar_of_lt (h c hc), List.length_singleton]
  rw [toList_toUTF8, List.length_flatMap, hone, List.map_const',
    List.sum_replicate_nat, Nat.mul_one]

-- ================================================================ blanks

/-- `body` is `line` without the blanks at its ends. -/
structure Strips (line body : List Char) : Prop where
  ends : ∃ front back, line = front ++ body ++ back ∧
    (∀ c ∈ front, isBlank c = true) ∧
    ∀ c ∈ back, isBlank c = true
  first : ∀ c, body.head? = some c → isBlank c = false
  last : ∀ c, body.getLast? = some c → isBlank c = false

/-- Blanks in front are dropped as far as they go. -/
theorem dropWhile_append_blank {front rest : List Char}
    (hfront : ∀ c ∈ front, isBlank c = true)
    (hrest : ∀ c, rest.head? = some c → isBlank c = false) :
    (front ++ rest).dropWhile isBlank = rest := by
  rw [List.dropWhile_append_of_pos hfront]
  cases rest with
  | nil => rfl
  | cons c rest =>
    refine List.dropWhile_cons_of_neg ?_
    rw [hrest c rfl]
    exact Bool.false_ne_true

/-- What is dropped in front are blanks, and what is left begins with
none. -/
theorem exists_blank_append (cs : List Char) :
    ∃ front, cs = front ++ cs.dropWhile isBlank ∧
    (∀ c ∈ front, isBlank c = true) ∧
      ∀ c, (cs.dropWhile isBlank).head? = some c → isBlank c = false := by
  induction cs with
  | nil => exact ⟨[], rfl, List.forall_mem_nil _, fun c hc => nomatch hc⟩
  | cons c cs ih =>
    by_cases hc : isBlank c = true
    · obtain ⟨front, hcs, hfront, hhead⟩ := ih
      rw [List.dropWhile_cons_of_pos hc]
      exact ⟨c :: front, congrArg (c :: ·) hcs,
        List.forall_mem_cons.2 ⟨hc, hfront⟩, hhead⟩
    · rw [List.dropWhile_cons_of_neg hc]
      refine ⟨[], rfl, List.forall_mem_nil _, ?_⟩
      intro d hd
      rw [← Option.some.inj hd]
      exact Bool.eq_false_iff.2 hc

/-- Trimming takes the blanks off both ends and nothing more. -/
theorem trim_of_strips {line body : List Char} (h : Strips line body) :
    trim line = body := by
  obtain ⟨front, back, rfl, hfront, hback⟩ := h.ends
  unfold trim
  cases hbody : body with
  | nil =>
    have hblank : ∀ c ∈ front ++ back, isBlank c = true := by
      intro c hc
      rcases List.mem_append.1 hc with hc | hc
      · exact hfront c hc
      · exact hback c hc
    have hnone : ∀ c, ([] : List Char).head? = some c → isBlank c = false :=
      fun c hc => nomatch hc
    rw [List.append_nil, ← List.append_nil (front ++ back),
      dropWhile_append_blank hblank hnone]
    rfl
  | cons c cs =>
    have hhead : ∀ d, (c :: cs ++ back).head? = some d → isBlank d = false := by
      intro d hd
      refine h.first d ?_
      rw [hbody]
      exact hd
    have hlast : ∀ d, (c :: cs).reverse.head? = some d → isBlank d = false := by
      intro d hd
      rw [List.head?_reverse, ← hbody] at hd
      exact h.last d hd
    have hback' : ∀ d ∈ back.reverse, isBlank d = true :=
      fun d hd => hback d (List.mem_reverse.1 hd)
    rw [List.append_assoc, dropWhile_append_blank hfront hhead,
      List.reverse_append, dropWhile_append_blank hback' hlast,
      List.reverse_reverse]

/-- Trimming takes off what is to be taken off. So the grammar speaks
of what is taken off, and the reader of what is left. -/
theorem strips_iff {line body : List Char} :
    Strips line body ↔ trim line = body := by
  constructor
  · exact trim_of_strips
  · rintro rfl
    obtain ⟨front, hline, hfront, hhead⟩ := exists_blank_append line
    obtain ⟨back, hbody, hback, hlast⟩ :=
      exists_blank_append (line.dropWhile isBlank).reverse
    have hsplit : line.dropWhile isBlank = trim line ++ back.reverse := by
      have hreverse := congrArg List.reverse hbody
      rw [List.reverse_reverse, List.reverse_append] at hreverse
      exact hreverse
    refine ⟨⟨front, back.reverse, ?_, hfront,
      fun c hc => hback c (List.mem_reverse.1 hc)⟩, ?_, ?_⟩
    · rw [List.append_assoc, ← hsplit]
      exact hline
    · intro c hc
      refine hhead c ?_
      rw [hsplit, List.head?_append, hc]
      rfl
    · intro c hc
      refine hlast c ?_
      unfold trim at hc
      rw [List.getLast?_reverse] at hc
      exact hc

/-- Text without blanks is not trimmed. It is used for lines that were
printed. -/
theorem trim_of_not_blank (h : ∀ c ∈ cs, isBlank c = false) : trim cs = cs := by
  refine trim_of_strips ⟨⟨[], [], ?_, List.forall_mem_nil _,
    List.forall_mem_nil _⟩, ?_, ?_⟩
  · rw [List.nil_append, List.append_nil]
  · intro c hc
    exact h c (List.mem_of_mem_head? hc)
  · intro c hc
    exact h c (List.mem_of_mem_getLast? hc)

theorem mem_dropWhile {p : Char → Bool} (h : c ∈ cs) (hc : p c = false) :
    c ∈ cs.dropWhile p := by
  induction cs with
  | nil => cases h
  | cons d cs ih =>
    by_cases hd : p d = true
    · rw [List.dropWhile_cons_of_pos hd]
      rcases List.mem_cons.1 h with rfl | h
      · rw [hc] at hd
        cases hd
      · exact ih h
    · rw [List.dropWhile_cons_of_neg hd]
      exact h

/-- Nothing but blanks is trimmed. So a character that is no blank is
still there. -/
theorem mem_trim (h : c ∈ cs) (hc : isBlank c = false) : c ∈ trim cs := by
  unfold trim
  rw [List.mem_reverse]
  apply mem_dropWhile _ hc
  rw [List.mem_reverse]
  exact mem_dropWhile h hc

end XorSpan.Text
