/-
Hash lists written and read. Values printed one to a line are read back
as they were (`parse_printValues`), since hex text has no blanks in it
and does not begin with a comment mark.

What is read is no more than the file has room for: two characters to a
byte, at least one byte of the file to a character (`spelled_of_parse`).
A pool that is accepted has eight entries to each byte of the target; so
if its file is within the limit, its entries are short and neither they
nor their sums are too many for a frame (`Accepted.frames`).
-/
import Mathlib.Algebra.BigOperators.Group.List.Basic
import Mathlib.Tactic.Ring
import XorSpan.Cli.Run
import XorSpan.Proofs.Find
import XorSpan.Proofs.HashGrammar
import XorSpan.Proofs.HexOrder

namespace XorSpan

-- ============================================================== hex texts

namespace Bytes

variable {b : Bytes} {c : Char}

theorem isDigit_digitOf : ∀ d : Fin 16, IsDigit (digitOf d) d := by decide

/-- Written hex text spells the value. Every byte is written as its
two digits, the higher one first. -/
theorem spells_hexChars (b : Bytes) : Spells b.hexChars b.toList := by
  rw [hexChars_eq]
  induction b.toList with
  | nil => exact .nil
  | cons x xs ih =>
    have hbyte : x.toNat = 16 * (highHalf x).val + (lowHalf x).val := by
      unfold highHalf lowHalf
      dsimp only
      omega
    exact .pair (isDigit_digitOf _) (isDigit_digitOf _) hbyte ih

/-- Hex text has two characters for every byte. -/
theorem length_hexChars (b : Bytes) : b.hexChars.length = 2 * b.size := by
  rw [length_of_spells (spells_hexChars b), Array.length_toList]

/-- No digit is a blank or a comment mark, and all are below 128. All
sixteen are gone through. -/
theorem digitOf_plain :
    ∀ d : Fin 16, (digitOf d).toNat < 128 ∧ Text.isBlank (digitOf d) = false ∧
    Parameters.commentMarks.contains (digitOf d) = false := by decide

/-- There is no blank in it, so nothing is trimmed off its ends. -/
theorem isBlank_of_mem_hexChars (h : c ∈ b.hexChars) :
    Text.isBlank c = false := by
  obtain ⟨d, rfl⟩ := exists_digitOf_of_mem_hexChars h
  exact (digitOf_plain d).2.1

end Bytes

namespace HashList

open Text

variable {path : String} {number : Nat} {values : List Bytes} {v : Bytes}

-- ============================================================ round trip

/-- A line of hex text means its value, unless it is empty: a value
without bytes would be a blank line, and passed over. -/
theorem means_hexChars (hv : v.size ≠ 0) : Means v.hexChars (some v) := by
  have hstrips : Strips v.hexChars v.hexChars :=
    strips_iff.2 (trim_of_not_blank
      fun c hc => Bytes.isBlank_of_mem_hexChars hc)
  refine .value hstrips ?_ (Bytes.spells_hexChars v)
  have hlength := Bytes.length_hexChars v
  cases hcs : v.hexChars with
  | nil =>
    rw [hcs, List.length_nil] at hlength
    omega
  | cons c cs =>
    have hc : c ∈ v.hexChars := by
      rw [hcs]
      exact List.mem_cons_self ..
    obtain ⟨d, rfl⟩ := Bytes.exists_digitOf_of_mem_hexChars hc
    rw [skipped_cons, (Bytes.digitOf_plain d).2.2]
    exact Bool.false_ne_true

/-- So lines of hex text keep the rule, and mean their values in their
order. -/
theorem holds_hexChars (hvalues : ∀ v ∈ values, v.size ≠ 0) :
    Holds (values.map Bytes.hexChars) values := by
  induction values with
  | nil => exact .nil
  | cons v values ih =>
    obtain ⟨hv, hrest⟩ := List.forall_mem_cons.1 hvalues
    exact .line (means_hexChars hv) (ih hrest)

theorem toList_textOfLines (lines : List String) :
    (textOfLines lines.toArray).toList = lines.flatMap fun line =>
      line.toList ++ ['\n'] := by
  have hfold : ∀ (lines : List String) (text : String),
      (lines.foldl (fun text line => text ++ line ++ "\n") text).toList =
        text.toList ++ lines.flatMap fun line => line.toList ++ ['\n'] := by
    intro lines
    induction lines with
    | nil => simp
    | cons line lines ih =>
      intro text
      rw [List.foldl_cons, ih]
      simp
  unfold textOfLines
  rw [List.foldl_toArray, hfold]
  rfl

/-- Values are printed as the hex text of each, with a line feed
behind it. -/
theorem toList_printValues (values : List Bytes) :
    (Cli.printValues values).toList =
      (values.map Bytes.hexChars).flatMap (· ++ ['\n']) := by
  unfold Cli.printValues
  rw [toList_textOfLines, List.flatMap_map, List.flatMap_map]
  simp only [Bytes.toHex, String.toList_ofList]

/-- All characters that are printed are below 128, so each is one byte
in the file. -/
theorem plain_printValues (values : List Bytes) :
    Plain (Cli.printValues values).toList := by
  intro c hc
  rw [toList_printValues] at hc
  obtain ⟨line, hline, hc⟩ := List.mem_flatMap.1 hc
  obtain ⟨v, -, rfl⟩ := List.mem_map.1 hline
  rcases List.mem_append.1 hc with hc | hc
  · obtain ⟨d, rfl⟩ := Bytes.exists_digitOf_of_mem_hexChars hc
    exact (Bytes.digitOf_plain d).1
  · rw [List.mem_singleton.1 hc]
    decide

/-- A printed value takes two bytes to each of its own, and one for
the end of its line. -/
theorem length_printValues {n : Nat} (hvalues : ∀ v ∈ values, v.size = n) :
    (Cli.printValues values).toUTF8.toList.length =
      values.length * (2 * n + 1) := by
  have hlines : ∀ v ∈ values, (v.hexChars ++ ['\n']).length = 2 * n + 1 := by
    intro v hv
    rw [List.length_append, List.length_singleton,
      Bytes.length_hexChars, hvalues v hv]
  rw [length_toUTF8_of_plain (plain_printValues values), toList_printValues,
    List.flatMap_map, List.length_flatMap, List.map_congr_left hlines,
    List.map_const', List.sum_replicate_nat]

/-- Printed values fall into lines of their own. No terminator occurs
inside a line, and every line has one behind it. -/
theorem fallsInto_printValues (values : List Bytes) :
    FallsInto (Cli.printValues values).toList (values.map Bytes.hexChars) := by
  rw [toList_printValues]
  apply fallsInto_flatMap _ .feed
  intro line hline c hc
  obtain ⟨v, -, rfl⟩ := List.mem_map.1 hline
  have hblank := Bytes.isBlank_of_mem_hexChars hc
  constructor
  · rintro rfl
    exact absurd hblank (by decide)
  · rintro rfl
    exact absurd hblank (by decide)

/-- Printed values are read back as they were. Values without bytes
are the exception, since their lines are blank. -/
theorem parse_printValues (hvalues : ∀ v ∈ values, v.size ≠ 0) :
    parse path (Cli.printValues values).toUTF8.toList = .ok values := by
  rw [parse_of_fallsInto (fallsInto_printValues values)]
  exact readLines_of_holds (holds_hexChars hvalues)

-- ================================================================= sizes

/-- Trimming takes characters off and adds none. -/
theorem length_trim_le (cs : List Char) : (trim cs).length ≤ cs.length := by
  unfold trim
  rw [List.length_reverse]
  apply Nat.le_trans (List.dropWhile_sublist isBlank).length_le
  rw [List.length_reverse]
  exact (List.dropWhile_sublist isBlank).length_le

/-- A value has room twice in the line it is read from. -/
theorem size_of_readLine {line : List Char}
    (h : readLine path number line = .ok (some v)) :
    2 * v.size ≤ line.length := by
  apply le_trans _ (length_trim_le line)
  unfold readLine at h
  split at h
  · cases h
  · next c cs htrim =>
    rw [htrim]
    split at h
    · cases h
    · split at h
      · next value hvalue =>
        cases h
        rw [Bytes.size_of_readHex hvalue]
      · cases h

/-- How many characters values take in hex. -/
def spelled (values : List Bytes) : Nat := (values.map fun v => 2 * v.size).sum

/-- So the values read have room in their lines, together with those
read before. -/
theorem spelled_of_readLines {read : List Bytes} {ls : List (List Char)}
    (h : readLines path number read ls = .ok values) :
    spelled values ≤ spelled read + (ls.map List.length).sum := by
  induction ls generalizing number read with
  | nil =>
    rw [readLines] at h
    cases h
    simp [spelled, List.sum_reverse]
  | cons line ls ih =>
    rw [readLines] at h
    rw [List.map_cons, List.sum_cons]
    split at h
    · cases h
    · have hle := ih h
      omega
    · next v hv =>
      have hle := ih h
      have hsize := size_of_readLine hv
      have hcons : spelled (v :: read) = 2 * v.size + spelled read := by
        simp [spelled]
      omega

/-- The lines of a text are no longer than the text. What is missing
are the terminators. -/
theorem length_of_fallsInto {text : List Char} {ls : List (List Char)}
    (h : FallsInto text ls) :
    (ls.map List.length).sum ≤ text.length := by
  induction h with
  | nil => exact Nat.le_refl 0
  | last => simp
  | line _ _ _ _ ih =>
    rw [List.map_cons, List.sum_cons, List.length_append, List.length_append]
    omega

/-- No more characters are decoded than there are bytes, whether or
not decoding comes to the end. -/
theorem length_decodeFrom_le (position : Nat) (read : List Char)
    (bytes : List UInt8) :
    (decodeFrom position read bytes).1.length ≤ read.length + bytes.length := by
  fun_induction decodeFrom position read bytes with
  | case1 position read => simp
  | case2 position read first rest c length hstep ih =>
    rw [List.length_cons, List.length_drop] at ih
    rw [List.length_cons]
    omega
  | case3 => simp
  | case4 => simp
  | case5 => simp

/-- The hex text of the values read has room in the file. Bytes,
characters, lines, trimmed lines: nothing gets longer on the way. -/
theorem spelled_of_parse {bytes : List UInt8}
    (h : parse path bytes = .ok values) :
    spelled values ≤ bytes.length := by
  unfold parse at h
  split at h
  · next text hdecode =>
    have htext : text.length ≤ bytes.length := by
      have hlength := length_decodeFrom_le 0 [] bytes
      unfold decodeUtf8 at hdecode
      rw [hdecode] at hlength
      simpa using hlength
    have hlines := length_of_fallsInto (fallsInto_iff.2 (rfl : lines text = _))
    have hread := spelled_of_readLines h
    have hnone : spelled [] = 0 := rfl
    omega
  · cases h
  · split at h <;> cases h

end HashList

-- ================================================================= limits

/-- Every file is as long as the disk says. -/
def Disk.Steady (disk : Disk) : Prop :=
  ∀ path size read, disk.look path = .file size read → (read ()).length = size

theorem Disk.steady_uniform (contents : List UInt8) :
    (uniform contents).Steady := by
  intro path size read h
  cases h
  rfl

namespace HashList

variable {disk : Disk} {path : String} {values : List Bytes}

/-- What is read is within the limit. A larger file is not read at
all, which is what keeps the pools of the command line small. -/
theorem spelled_of_read (hsteady : disk.Steady)
    (h : read disk path = .ok values) :
    spelled values ≤ Parameters.hashListLimit := by
  unfold read at h
  dsimp only at h
  split at h
  · cases h
  · cases h
  · next size contents hfind =>
    split at h
    · cases h
    · next hsize =>
      have hlook : disk.look (Path.normal path) = .file size contents := by
        unfold Disk.find at hfind
        split at hfind
        · cases hfind
        · exact hfind
      have hparse := spelled_of_parse h
      rw [hsteady _ _ _ hlook] at hparse
      omega

/-- Values of one length take twice that length each when they are
spelled. -/
theorem spelled_of_sizes {n : Nat} (h : ∀ v ∈ values, v.size = n) :
    spelled values = values.length * (2 * n) := by
  have hsizes : values.map (fun v => 2 * v.size) = values.map fun _ => 2 * n :=
    List.map_congr_left fun v hv => by rw [h v hv]
  unfold spelled
  rw [hsizes, List.map_const', List.sum_replicate_nat]

end HashList

/-- An accepted pool within the limit has a frame, and so has all that
a sweep of it can compute. -/
theorem Solution.Accepted.frames {target : Bytes} {pool : List Bytes}
    (hacc : Solution.Accepted target pool)
    (hlimit : HashList.spelled pool ≤ Parameters.hashListLimit) :
    target.size ≤ 0xffff ∧ pool.length ≤ 0xffffffff ∧
      8 * target.size * pool.length ≤ 0xffffffff := by
  have hpos : 1 ≤ target.size := Nat.one_le_iff_ne_zero.2 hacc.nonempty
  have hspelled : pool.length * (2 * target.size) ≤ 104857600 := by
    rw [← HashList.spelled_of_sizes hacc.sizes]
    exact hlimit
  have hsquare : 8 * target.size * (2 * target.size) ≤ 104857600 :=
    Nat.le_trans (Nat.mul_le_mul_right _ hacc.enough) hspelled
  have hcount : pool.length * 1 ≤ pool.length * (2 * target.size) :=
    Nat.mul_le_mul_left _ (by omega)
  refine ⟨?_, by omega, ?_⟩
  · by_contra hlong
    have hwide : 8 * 0xffff * (2 * 0xffff) ≤ 8 * target.size *
        (2 * target.size) :=
      Nat.mul_le_mul (by omega) (by omega)
    omega
  · have hswap : 8 * target.size * pool.length =
        4 * (pool.length * (2 * target.size)) := by ring
    omega

end XorSpan
