/-
What a hash list is. Its text falls into lines, and the blanks at the
ends of each line are stripped. A line of which nothing is left is
skipped, and so is a comment; every other line is to be hex text, digits
of either case in pairs, each pair a byte.

If all of them are, the list is read as their values in order, and if not,
it is refused under the number of the first that is not
(`read_grammar`). Which terminators the lines have plays no part.
-/
import XorSpan.HashList
import XorSpan.Proofs.Encoding
import XorSpan.Proofs.Splitting

namespace XorSpan

-- ============================================================== hex texts

namespace Bytes

variable {c : Char} {cs : List Char} {x : UInt8} {xs : List UInt8}
    {b read : Bytes} {d : Nat}

def lowerDigits : List Char :=
  ['0', '1', '2', '3', '4', '5', '6', '7', '8', '9', 'a', 'b',
    'c', 'd', 'e', 'f']

def upperDigits : List Char :=
  ['0', '1', '2', '3', '4', '5', '6', '7', '8', '9', 'A', 'B',
    'C', 'D', 'E', 'F']

/-- The character is the digit of a number below sixteen, in either
case. -/
def IsDigit (c : Char) (d : Nat) : Prop :=
  lowerDigits[d]? = some c ∨ upperDigits[d]? = some c

instance (c : Char) (d : Nat) : Decidable (IsDigit c d) :=
  inferInstanceAs (Decidable (lowerDigits[d]? = some c ∨
    upperDigits[d]? = some c))

/-- Digits in pairs, high half first, and the bytes that they spell. -/
inductive Spells : List Char → List UInt8 → Prop where
  | nil : Spells [] []
  | pair {a b : Char} {high low : Nat} {x : UInt8} {cs : List Char}
      {xs : List UInt8}
      (first : IsDigit a high) (second : IsDigit b low)
        (byte : x.toNat = 16 * high + low)
      (later : Spells cs xs) : Spells (a :: b :: cs) (x :: xs)

/-- A nonempty text of digits, even in number. -/
structure HexText (cs : List Char) : Prop where
  nonempty : cs ≠ []
  even : cs.length % 2 = 0
  digits : ∀ c ∈ cs, ∃ d, IsDigit c d

/-- A digit stands for less than sixteen, whether it is a lower-case
or an upper-case one. -/
theorem IsDigit.lt (h : IsDigit c d) : d < 16 := by
  rcases h with h | h <;> exact (List.getElem?_eq_some_iff.1 h).1

/-- The reader takes each of the sixteen digits of either case for its
number. -/
theorem bind_hexValue?_digits : ∀ d : Fin 16,
    lowerDigits[d.val]?.bind hexValue? = some (UInt8.ofNat d) ∧
      upperDigits[d.val]?.bind hexValue? = some (UInt8.ofNat d) := by decide

/-- What the grammar calls a digit is read as the number it stands
for. -/
theorem hexValue?_of_isDigit (h : IsDigit c d) :
    hexValue? c = some (UInt8.ofNat d) := by
  have hdigits := bind_hexValue?_digits ⟨d, h.lt⟩
  have hlower : lowerDigits[d]?.bind hexValue? = some (UInt8.ofNat d) :=
    hdigits.1
  have hupper : upperDigits[d]?.bind hexValue? = some (UInt8.ofNat d) :=
    hdigits.2
  rcases h with h | h
  · rw [h] at hlower
    exact hlower
  · rw [h] at hupper
    exact hupper

/-- The characters of a range, if they are the digits of consecutive
numbers. -/
theorem isDigit_of_range (first offset count : Nat) (hfirst : first ≤ c.toNat)
    (hlast : c.toNat < first + count)
    (hdigits : ∀ k : Fin count,
      IsDigit (Char.ofNat (first + k)) (first + k - offset)) :
    IsDigit c (c.toNat - offset) := by
  have hdigit := hdigits ⟨c.toNat - first, by omega⟩
  dsimp only at hdigit
  rw [Nat.add_sub_cancel' hfirst, Char.ofNat_toNat] at hdigit
  exact hdigit

/-- And nothing else is read: a character with a value is the digit of
that value. -/
theorem isDigit_of_hexValue? (h : hexValue? c = some x) :
    IsDigit c x.toNat := by
  unfold hexValue? at h
  split at h
  · next hrange =>
    have hfirst : 48 ≤ c.toNat := hrange.1
    have hlast : c.toNat ≤ 57 := hrange.2
    cases h
    rw [Text.toNat_ofNat (by omega)]
    exact isDigit_of_range 48 48 10 hfirst (by omega) (by decide)
  · split at h
    · next hrange =>
      have hfirst : 65 ≤ c.toNat := hrange.1
      have hlast : c.toNat ≤ 70 := hrange.2
      cases h
      rw [Text.toNat_ofNat (by omega)]
      exact isDigit_of_range 65 55 6 hfirst (by omega) (by decide)
    · split at h
      · next hrange =>
        have hfirst : 97 ≤ c.toNat := hrange.1
        have hlast : c.toNat ≤ 102 := hrange.2
        cases h
        rw [Text.toNat_ofNat (by omega)]
        exact isDigit_of_range 97 87 6 hfirst (by omega) (by decide)
      · cases h

/-- A pair of digits makes a byte. -/
theorem toNat_pair {h l : UInt8} (hh : h.toNat < 16) (hl : l.toNat < 16) :
    (h * 16 + l).toNat = 16 * h.toNat + l.toNat := by
  rw [UInt8.toNat_add, UInt8.toNat_mul]
  have hsixteen : (16 : UInt8).toNat = 16 := rfl
  rw [hsixteen]
  omega

/-- What the reader makes of a text is what it had before and what the
text spells. The induction goes two characters at a time, as the
reader does. -/
theorem spells_of_readHex (h : readHex read cs = some b) :
    ∃ xs, Spells cs xs ∧ b = read ++ xs.toArray := by
  fun_induction readHex read cs with
  | case1 read =>
    cases h
    exact ⟨[], .nil, by simp⟩
  | case2 => cases h
  | case3 read high low rest y x hy hx ih =>
    obtain ⟨xs, hxs, rfl⟩ := ih h
    have hhigh := isDigit_of_hexValue? hx
    have hlow := isDigit_of_hexValue? hy
    refine ⟨_, .pair hhigh hlow (toNat_pair hhigh.lt hlow.lt) hxs, ?_⟩
    simp
  | case4 => cases h

/-- A text that spells something is read, behind whatever was read
before it. -/
theorem readHex_of_spells (h : Spells cs xs) (read : Bytes) :
    readHex read cs = some (read ++ xs.toArray) := by
  induction h generalizing read with
  | nil => simp [readHex]
  | @pair a b high low x cs xs first second byte _ ih =>
    have hbyte : UInt8.ofNat high * 16 + UInt8.ofNat low = x := by
      have hhigh := Text.toNat_ofNat
        (Nat.lt_trans first.lt (by decide : 16 < 256))
      have hlow := Text.toNat_ofNat
        (Nat.lt_trans second.lt (by decide : 16 < 256))
      apply UInt8.toNat_inj.1
      rw [toNat_pair (by rw [hhigh]; exact first.lt)
        (by rw [hlow]; exact second.lt), hhigh, hlow,
        byte]
    rw [readHex, hexValue?_of_isDigit first, hexValue?_of_isDigit second]
    dsimp only
    rw [hbyte, ih]
    simp

/-- Digits in even number spell something. The induction takes two
characters off at a time. -/
theorem exists_spells : ∀ cs : List Char, cs.length % 2 = 0 →
    (∀ c ∈ cs, ∃ d, IsDigit c d) →
    ∃ xs, Spells cs xs
  | [], _, _ => ⟨[], .nil⟩
  | [_], heven, _ => by cases heven
  | a :: b :: cs, heven, hdigits => by
    obtain ⟨⟨high, hhigh⟩, hrest⟩ := List.forall_mem_cons.1 hdigits
    obtain ⟨⟨low, hlow⟩, hcs⟩ := List.forall_mem_cons.1 hrest
    rw [List.length_cons, List.length_cons] at heven
    obtain ⟨xs, hxs⟩ := exists_spells cs (by omega) hcs
    have hbound := hhigh.lt
    have hbound' := hlow.lt
    exact ⟨UInt8.ofNat (16 * high + low) :: xs,
      .pair hhigh hlow (Text.toNat_ofNat (by omega)) hxs⟩

/-- A text is twice as long as what it spells, so texts of odd length
spell nothing. -/
theorem length_of_spells (h : Spells cs xs) : cs.length = 2 * xs.length := by
  induction h with
  | nil => rfl
  | pair _ _ _ _ ih =>
    rw [List.length_cons, List.length_cons, List.length_cons]
    omega

/-- There is nothing but digits in a text that spells something. -/
theorem digits_of_spells (h : Spells cs xs) : ∀ c ∈ cs, ∃ d, IsDigit c d := by
  induction h with
  | nil => exact List.forall_mem_nil _
  | pair first second _ _ ih =>
    exact List.forall_mem_cons.2 ⟨⟨_, first⟩,
      List.forall_mem_cons.2 ⟨⟨_, second⟩, ih⟩⟩

/-- A text that spells something, be it only one byte, is hex text. -/
theorem hexText_of_spells (h : Spells cs xs) (hne : cs ≠ []) : HexText cs := by
  refine ⟨hne, ?_, digits_of_spells h⟩
  rw [length_of_spells h]
  exact Nat.mul_mod_right 2 _

/-- Two characters to a byte. So an odd one could not be read. -/
theorem size_of_readHex (h : readHex #[] cs = some b) :
    2 * b.size = cs.length := by
  obtain ⟨xs, hxs, rfl⟩ := spells_of_readHex h
  rw [length_of_spells hxs, Array.size_append, Array.size_empty, Nat.zero_add,
    List.size_toArray]

/-- A text is read as what it spells. The empty text is the one
exception: it spells no bytes, and is refused. -/
theorem ofHex?_eq_some_iff {t : String} :
    ofHex? t = some b ↔ t ≠ "" ∧ Spells t.toList b.toList := by
  unfold ofHex?
  by_cases hempty : t = ""
  · rw [if_pos (String.isEmpty_iff.2 hempty)]
    exact iff_of_false (fun h => nomatch h) fun h => h.1 hempty
  · rw [if_neg (mt String.isEmpty_iff.1 hempty)]
    constructor
    · intro h
      obtain ⟨xs, hxs, rfl⟩ := spells_of_readHex h
      rw [Array.empty_append, List.toList_toArray]
      exact ⟨hempty, hxs⟩
    · intro h
      rw [readHex_of_spells h.2 #[], Array.toArray_toList, Array.empty_append]

end Bytes

namespace HashList

open Text

variable {path : String} {number : Nat} {line body : List Char}
    {ls earlier : List (List Char)}
  {found : Option Bytes} {values : List Bytes} {b : Bytes} {e : HashListError}

-- ================================================================= lines

/-- What is left of a line that has no value to give. -/
inductive Skipped : List Char → Prop where
  | blank : Skipped []
  | comment {c : Char} (mark : c = ';' ∨ c = '#') (rest : List Char) :
      Skipped (c :: rest)

/-- What a line says, if it keeps the rule. -/
inductive Means (line : List Char) : Option Bytes → Prop where
  | nothing {body : List Char} (strips : Strips line body)
      (skipped : Skipped body) :
      Means line none
  | value {body : List Char} {b : Bytes} (strips : Strips line body)
      (kept : ¬Skipped body)
      (spells : Bytes.Spells body b.toList) : Means line (some b)

/-- A line breaks the rule, with this much of it left to blame. -/
structure Breaks (line body : List Char) : Prop where
  strips : Strips line body
  kept : ¬Skipped body
  wrong : ¬Bytes.HexText body

/-- A line is a comment by its first character alone; whatever follows
is not looked at. -/
theorem skipped_cons {c : Char} {rest : List Char} :
    Skipped (c :: rest) ↔ Parameters.commentMarks.contains c = true := by
  have hmarks : Parameters.commentMarks.contains c = true ↔
      c = ';' ∨ c = '#' := by
    simp [Parameters.commentMarks]
  rw [hmarks]
  constructor
  · intro h
    cases h with
    | comment mark => exact mark
  · intro mark
    exact .comment mark rest

/-- Blank lines and comments have no value and cause no complaint, not
even comments that no one could read as hex text. -/
theorem readLine_of_skipped (hstrips : Strips line body)
    (hskipped : Skipped body) :
    readLine path number line = .ok none := by
  unfold readLine
  rw [trim_of_strips hstrips]
  cases body with
  | nil => rfl
  | cons c rest => exact if_pos (skipped_cons.1 hskipped)

/-- Of a line that is not skipped, all is read. It is a value or a
complaint, and never passed over. -/
theorem readLine_of_kept (hstrips : Strips line body) (hkept : ¬Skipped body) :
    readLine path number line = match Bytes.readHex #[] body with
      | some value => .ok (some value)
      | none => .error (.badLine path number (String.ofList body)) := by
  unfold readLine
  rw [trim_of_strips hstrips]
  cases body with
  | nil => exact absurd .blank hkept
  | cons c rest => exact if_neg fun hmark => hkept (skipped_cons.2 hmark)

/-- A line that keeps the rule is read as what it means: a value, or
nothing. -/
theorem readLine_of_means (h : Means line found) :
    readLine path number line = .ok found := by
  cases h with
  | nothing strips skipped => exact readLine_of_skipped strips skipped
  | @value body b strips kept spells =>
    rw [readLine_of_kept strips kept, Bytes.readHex_of_spells spells]
    simp

/-- A line that breaks the rule is named in the error, with its number
and its text without the blanks around it. -/
theorem readLine_of_breaks (h : Breaks line body) :
    readLine path number line =
      .error (.badLine path number (String.ofList body)) := by
  rw [readLine_of_kept h.strips h.kept]
  cases hread : Bytes.readHex #[] body with
  | none => rfl
  | some b =>
    obtain ⟨xs, hspells, -⟩ := Bytes.spells_of_readHex hread
    have hnonempty : body ≠ [] := fun hnil => h.kept (hnil ▸ .blank)
    exact absurd (Bytes.hexText_of_spells hspells hnonempty) h.wrong

/-- A line keeps the rule or breaks it. Which of the two can be
decided by looking at the line alone. -/
theorem means_or_breaks (line : List Char) :
    (∃ found, Means line found) ∨ ∃ body, Breaks line body := by
  have hstrips : Strips line (trim line) := strips_iff.2 rfl
  by_cases hskipped : Skipped (trim line)
  · exact .inl ⟨_, .nothing hstrips hskipped⟩
  · by_cases hhex : Bytes.HexText (trim line)
    · obtain ⟨xs, hspells⟩ := Bytes.exists_spells _ hhex.even hhex.digits
      exact .inl ⟨some xs.toArray, .value hstrips hskipped hspells⟩
    · exact .inr ⟨_, hstrips, hskipped, hhex⟩

-- ================================================================= lists

/-- Every line keeps the rule, and these are the values they give, in
order. -/
inductive Holds : List (List Char) → List Bytes → Prop where
  | nil : Holds [] []
  | line {line : List Char} {found : Option Bytes} {ls : List (List Char)}
      {values : List Bytes}
      (means : Means line found) (later : Holds ls values) :
      Holds (line :: ls) (found.toList ++ values)

/-- The first line that breaks the rule. Lines count from 1. -/
inductive FirstBreak : List (List Char) → Nat → List Char → Prop where
  | after {earlier : List (List Char)} {values : List Bytes}
      {line body : List Char}
      (holds : Holds earlier values) (breaks : Breaks line body)
        (later : List (List Char)) :
      FirstBreak (earlier ++ line :: later) (earlier.length + 1) body

/-- Lines that keep the rule leave their values behind. The lines
behind them are numbered on from there. -/
theorem readLines_append (h : Holds earlier values) (number : Nat)
    (read : List Bytes) (ls : List (List Char)) :
    readLines path number read (earlier ++ ls) =
      readLines path (number + earlier.length) (values.reverse ++ read) ls := by
  induction h generalizing number read with
  | nil => rfl
  | @line line found earlier values means _ ih =>
    have hnumber : number + (line :: earlier).length =
        number + 1 + earlier.length := by
      rw [List.length_cons]
      omega
    rw [List.cons_append, readLines, readLine_of_means means, hnumber]
    cases found with
    | none => exact ih ..
    | some value =>
      dsimp only
      rw [ih, Option.toList_some, List.reverse_append, List.reverse_singleton,
        List.append_assoc]
      rfl

/-- So lines of which every one keeps the rule are read as the values
among them, in their order. -/
theorem readLines_of_holds (h : Holds ls values) :
    readLines path 1 [] ls = .ok values := by
  rw [← List.append_nil ls, readLines_append h, readLines, List.append_nil,
    List.reverse_reverse]

/-- The first line to break the rule decides the error; the lines
behind it are not read. -/
theorem readLines_of_firstBreak (h : FirstBreak ls number body) :
    readLines path 1 [] ls = .error (.badLine path number
      (String.ofList body)) := by
  cases h with
  | after holds breaks later =>
    rw [readLines_append holds, readLines,
      readLine_of_breaks breaks, Nat.add_comm]

/-- All lines keep the rule, or there is a first that breaks it. The
second says that all lines before it keep the rule. -/
theorem holds_or_firstBreak (ls : List (List Char)) :
    (∃ values, Holds ls values) ∨ ∃ number body, FirstBreak ls number body := by
  induction ls with
  | nil => exact .inl ⟨_, .nil⟩
  | cons line ls ih =>
    rcases means_or_breaks line with ⟨found, hmeans⟩ | ⟨body, hbreaks⟩
    · rcases ih with ⟨values, hholds⟩ | ⟨_, body, hbreak⟩
      · exact .inl ⟨_, .line hmeans hholds⟩
      · cases hbreak with
        | after holds breaks later =>
          exact .inr ⟨_, body, .after (.line hmeans holds) breaks later⟩
    · exact .inr ⟨_, body, .after .nil hbreaks ls⟩

/-- The two cases exclude each other, so the reader accepts exactly
what the grammar accepts. -/
theorem readLines_eq_ok_iff : readLines path 1 [] ls = .ok values ↔
    Holds ls values := by
  constructor
  · intro h
    rcases holds_or_firstBreak ls with
      ⟨values', hholds⟩ | ⟨number, body, hbreak⟩
    · cases (readLines_of_holds hholds).symm.trans h
      exact hholds
    · cases (readLines_of_firstBreak hbreak).symm.trans h
  · exact readLines_of_holds

/-- And an error it gives is that of the first line to break the rule,
under its number from one. -/
theorem readLines_eq_error_iff : readLines path 1 [] ls = .error e ↔
    ∃ number body, FirstBreak ls number body ∧
      e = .badLine path number (String.ofList body) := by
  constructor
  · intro h
    rcases holds_or_firstBreak ls with ⟨values, hholds⟩ | ⟨number, body, hbreak⟩
    · cases (readLines_of_holds hholds).symm.trans h
    · cases (readLines_of_firstBreak hbreak).symm.trans h
      exact ⟨number, body, hbreak, rfl⟩
  · intro ⟨number, body, hbreak, he⟩
    rw [he]
    exact readLines_of_firstBreak hbreak

end HashList

-- ================================================================= files

/-- A path of one character can be looked up. -/
theorem Path.problem?_normal_f : Path.problem? (Path.normal "f") = none := by
  have hsplit : "f".splitOn "/" = ["f"] := by
    unfold String.splitOn
    rw [if_neg (by decide)]
    -- the one character, then the end
    unfold String.splitOnAux
    unfold String.splitOnAux
    decide +kernel
  unfold Path.normal Path.components
  rw [hsplit]
  decide +kernel

/-- Every path leads to a file with these bytes. -/
def Disk.uniform (contents : List UInt8) : Disk where
  look _ := .file contents.length fun _ => contents
  refusal _ := none

/-- On a disk where every path leads to the same file, any path that
can be looked up finds it. -/
theorem Disk.find_uniform (contents : List UInt8) {path : String}
    (hpath : Path.problem? path = none) :
    (uniform contents).find path = .file contents.length fun _ => contents := by
  unfold Disk.find
  rw [hpath]
  rfl

/-- The path leads to a file with this text, within the size limit of
a hash list. -/
def Disk.Offers (disk : Disk) (path : String) (text : String) : Prop :=
  ∃ size contents, disk.find (Path.normal path) = .file size contents ∧
    size ≤ Parameters.hashListLimit ∧ contents () = text.toUTF8.toList

namespace HashList

open Text

variable {disk : Disk} {path text : String} {ls : List (List Char)}

/-- The contents of a file are the text's code units; decoding them
gives back the text, and splitting it its lines. -/
theorem parse_of_fallsInto (hls : FallsInto text.toList ls) :
    parse path text.toUTF8.toList = readLines path 1 [] ls := by
  unfold parse
  rw [decodeUtf8_toUTF8]
  dsimp only
  rw [lines_of_fallsInto hls]

/-- A file within the limit is read. Its size is looked at first, and
then its contents. -/
theorem read_of_find {size : Nat} {contents : Unit → List UInt8}
    (hfind : disk.find (Path.normal path) = .file size contents)
    (hsize : size ≤ Parameters.hashListLimit) :
    read disk path = parse (Path.normal path) (contents ()) := by
  unfold read
  dsimp only
  rw [hfind]
  exact if_neg (Nat.not_lt.2 hsize)

/-- Reading a file that holds a text is reading the lines that the
text falls into. -/
theorem read_of_offers (h : disk.Offers path text)
    (hls : FallsInto text.toList ls) :
    read disk path = readLines (Path.normal path) 1 [] ls := by
  obtain ⟨size, contents, hfind, hsize, hcontents⟩ := h
  rw [read_of_find hfind hsize, hcontents, parse_of_fallsInto hls]

/-- Two lists read alike, whatever their paths. -/
inductive ReadAlike :
    Except HashListError (List Bytes) →
    Except HashListError (List Bytes) → Prop where
  | values (values : List Bytes) : ReadAlike (.ok values) (.ok values)
  | broken (path path' : String) (number : Nat) (body : String) :
      ReadAlike (.error (.badLine path number body))
        (.error (.badLine path' number body))

/-- Lines are read alike under two paths: the same values, or the same
complaint about the same line, each under its own path. -/
theorem readAlike_readLines (path path' : String) (ls : List (List Char)) :
    ReadAlike (readLines path 1 [] ls) (readLines path' 1 [] ls) := by
  rcases holds_or_firstBreak ls with ⟨values, hholds⟩ | ⟨number, body, hbreak⟩
  · rw [readLines_of_holds hholds, readLines_of_holds hholds]
    exact .values values
  · rw [readLines_of_firstBreak hbreak, readLines_of_firstBreak hbreak]
    exact .broken ..

/-- A hash list is read line by line: as the values of its lines, if
every line keeps the rule, and otherwise as an error about the first
that does not. With one terminator throughout or with another, it is
read alike. -/
theorem read_grammar (h : disk.Offers path text) :
    (∃ ls, FallsInto text.toList ls ∧
      (∀ ls', FallsInto text.toList ls' → ls' = ls) ∧
      (∀ values, read disk path = .ok values ↔ Holds ls values) ∧
      ∀ e, read disk path = .error e ↔
      ∃ number body, FirstBreak ls number body ∧
        e = .badLine (Path.normal path) number (String.ofList body)) ∧
    ∀ (disk' : Disk) (path' text' : String) (ls : List (List Char))
    (ending ending' : List Char),
      disk'.Offers path' text' → (∀ line ∈ ls, Unbroken line) →
      Terminator ending → text.toList = ls.flatMap (· ++ ending) →
      Terminator ending' → text'.toList = ls.flatMap (· ++ ending') →
      ReadAlike (read disk path) (read disk' path') := by
  constructor
  · obtain ⟨ls, hls⟩ := exists_fallsInto text.toList
    rw [read_of_offers h hls]
    refine ⟨ls, hls, ?_, fun _ => readLines_eq_ok_iff,
      fun _ => readLines_eq_error_iff⟩
    intro ls' hls'
    rw [← lines_of_fallsInto hls', lines_of_fallsInto hls]
  · intro disk' path' text' ls ending ending' h' hls hending
      htext hending' htext'
    have hfalls : FallsInto text.toList ls := by
      rw [htext]
      exact fallsInto_flatMap hls hending
    have hfalls' : FallsInto text'.toList ls := by
      rw [htext']
      exact fallsInto_flatMap hls hending'
    rw [read_of_offers h hfalls, read_of_offers h' hfalls']
    exact readAlike_readLines ..

/-- A vertical tab is a blank and no terminator, and a comment need
not be hex text. -/
theorem read_grammar_mixed :
    read (.uniform "ff\r\n;0g\r\u000b0A".toUTF8.toList) "f" =
      .ok [#[255], #[10]] := by
  have hoffers : (Disk.uniform "ff\r\n;0g\r\u000b0A".toUTF8.toList).Offers "f"
      "ff\r\n;0g\r\u000b0A" := by
    refine ⟨_, _, Disk.find_uniform _ Path.problem?_normal_f, ?_, rfl⟩
    rw [length_toUTF8_of_plain (by decide)]
    decide
  obtain ⟨⟨ls, -, hunique, hvalues, -⟩, -⟩ := read_grammar hoffers
  have hls : [['f', 'f'], [';', '0', 'g'], ['\x0b', '0', 'A']] = ls :=
    hunique _ (fallsInto_iff.2 (by decide))
  have hf : Bytes.IsDigit 'f' 15 := by decide
  have hzero : Bytes.IsDigit '0' 0 := by decide
  have hA : Bytes.IsDigit 'A' 10 := by decide
  have hfirst : Means ['f', 'f'] (some #[255]) := by
    have hstrips : Strips ['f', 'f'] ['f', 'f'] := strips_iff.2 (by decide)
    exact .value hstrips (mt skipped_cons.1 (by decide)) (.pair hf hf rfl .nil)
  have hcomment : Means [';', '0', 'g'] none := by
    have hstrips : Strips [';', '0', 'g'] [';', '0', 'g'] :=
      strips_iff.2 (by decide)
    exact .nothing hstrips (.comment (.inl rfl) _)
  have hlast : Means ['\x0b', '0', 'A'] (some #[10]) := by
    have hstrips : Strips ['\x0b', '0', 'A'] ['0', 'A'] :=
      strips_iff.2 (by decide)
    exact .value hstrips (mt skipped_cons.1 (by decide))
      (.pair hzero hA rfl .nil)
  rw [hvalues, ← hls]
  exact .line hfirst (.line hcomment (.line hlast .nil))

end HashList

end XorSpan
