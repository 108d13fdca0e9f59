/-
Byte values as words. The word of a value is the number it spells in
base 256, first byte most significant, so position `i` of an `n`-byte
value is bit `8n - 1 - i` of its word. XOR of values is XOR of words.

Callers may ask for a word or a width that no value has (a negative
word, a negative width); `WordError` says what was wrong.
-/
import XorSpan.Bytes.Basic

namespace XorSpan

/-- Why an operation on words or on the lengths of values is refused. -/
inductive WordError where
  /-- A word was to be shifted by a negative number of places. -/
  | negativeShift
  /-- The word has no `width`-byte value. -/
  | tooWide (word width : Int)
  /-- There is no bit `position` among `width` bits. -/
  | noSuchBit (position width : Int)
  /-- Two operands of a XOR differ in length. -/
  | unequalLengths (left right : Nat)
  /-- A summand is not as long as the sum. -/
  | wrongLength (index actual : Nat) (expected : Int)
deriving DecidableEq, Repr

namespace Bytes

-- ====================================================== values and words

/-- Puts bytes of a value behind a word: so many of them, from `start`
on. -/
def appendBytes (b : Bytes) (word start : Nat) : Nat → Nat
  | 0 => word
  | k + 1 => appendBytes b (word * 256 + (b.getD start 0).toNat) (start + 1) k

/-- The word of `count` bytes from `start` on, put together from
halves on so many levels. -/
def wordBetween (b : Bytes) (start count : Nat) : (levels : Nat) → Nat
  | 0 => appendBytes b 0 start count
  | level + 1 =>
      if count ≤ 7 then appendBytes b 0 start count
      else
        let low := count / 2
        let high := count - low
        (wordBetween b start high level) <<< (8 * low) +
          wordBetween b (start + high) low level

def toWord (b : Bytes) : Nat := wordBetween b 0 b.size b.size.log2

/-- Puts the lowest bytes of a word, so many of them, behind `bytes`,
the highest of them first. -/
def pushBytes (word : Nat) (bytes : Bytes) : Nat → Bytes
  | 0 => bytes
  | k + 1 => pushBytes word (bytes.push (UInt8.ofNat (word >>> (8 * k)))) k

/-- Puts the `n`-byte value of a word behind `bytes`, taking it apart
into halves on so many levels. -/
def pushWord (bytes : Bytes) (n word : Nat) : (levels : Nat) → Bytes
  | 0 => pushBytes word bytes n
  | level + 1 =>
      if n ≤ 7 then pushBytes word bytes n
      else
        let low := n / 2
        let high := word >>> (8 * low)
        pushWord (pushWord bytes (n - low) high level) low
          (word ^^^ (high <<< (8 * low))) level

/-- The `n`-byte value of a word; bits that do not fit are dropped. -/
def ofWord (n word : Nat) : Bytes :=
  pushWord (Array.emptyWithCapacity n) n word n.log2

-- ------------------------------------------------------ byte by byte

/-- One more byte of a word. -/
def wordStep (word : Nat) (x : UInt8) : Nat := word * 256 + x.toNat

theorem foldl_wordStep (bytes : List UInt8) (word : Nat) :
    bytes.foldl wordStep word = word <<< (8 * bytes.length) +
      bytes.foldl wordStep 0 := by
  induction bytes generalizing word with
  | nil => simp
  | cons x xs ih =>
    rw [List.foldl_cons, List.foldl_cons, ih, ih (wordStep 0 x)]
    simp only [wordStep, List.length_cons, Nat.shiftLeft_eq,
      Nat.mul_add, Nat.pow_add, Nat.add_mul, Nat.zero_mul, Nat.zero_add]
    have h : (2 : Nat) ^ (8 * 1) = 256 := rfl
    rw [h, Nat.mul_comm (2 ^ (8 * xs.length)) 256, Nat.mul_assoc]
    omega

theorem appendBytes_eq_foldl (b : Bytes) (word start k : Nat)
    (h : start + k ≤ b.size) :
    appendBytes b word start k =
      ((b.toList.drop start).take k).foldl wordStep word := by
  induction k generalizing word start with
  | zero => simp [appendBytes]
  | succ k ih =>
    have hb : start < b.size := by omega
    have hs : start < b.toList.length := by simpa using hb
    rw [appendBytes, ih _ _ (by omega), List.drop_eq_getElem_cons hs,
      List.take_succ_cons, List.foldl_cons]
    congr 1
    simp [wordStep, Array.getD, hb]

theorem wordBetween_eq_foldl (b : Bytes) (start count levels : Nat)
    (h : start + count ≤ b.size) :
    wordBetween b start count levels =
      ((b.toList.drop start).take count).foldl wordStep 0 := by
  induction levels generalizing start count with
  | zero => exact appendBytes_eq_foldl b 0 start count h
  | succ level ih =>
    rw [wordBetween]
    split
    · exact appendBytes_eq_foldl b 0 start count h
    · simp only
      rw [ih start (count - count / 2) (by omega),
        ih (start + (count - count / 2)) (count / 2) (by omega)]
      have hsplit : (b.toList.drop start).take count =
          (b.toList.drop start).take (count - count / 2) ++
            (b.toList.drop (start + (count - count / 2))).take (count / 2) := by
        rw [← List.drop_drop, ← List.take_add]
        congr 1
        omega
      have hlen :
          ((b.toList.drop (start + (count - count / 2))).take
            (count / 2)).length =
          count / 2 := by
        simp only [List.length_take, List.length_drop, Array.length_toList]
        omega
      rw [hsplit, List.foldl_append, foldl_wordStep _ (List.foldl _ _ _), hlen]

/-- Byte by byte, a word grows by one digit in base 256. -/
theorem toWord_eq_foldl (b : Bytes) : toWord b = b.toList.foldl wordStep 0 := by
  rw [toWord, wordBetween_eq_foldl b 0 b.size _ (by omega), List.drop_zero,
    ← Array.length_toList, List.take_length]

theorem toList_pushBytes (word : Nat) (bytes : Bytes) (n : Nat) :
    (pushBytes word bytes n).toList =
      bytes.toList ++ (List.range n).map fun i =>
        UInt8.ofNat (word >>> (8 * (n - 1 - i))) := by
  induction n generalizing bytes with
  | zero => simp [pushBytes]
  | succ k ih =>
    rw [pushBytes, ih, List.range_succ_eq_map, Array.toList_push,
      List.append_assoc]
    simp only [List.map_cons, List.map_map, List.singleton_append]
    refine congrArg _ ?_
    congr 1
    refine List.map_congr_left fun i _ => ?_
    simp only [Function.comp_apply]
    congr 3
    omega

/-- The bits that went into the high half make no difference below. -/
theorem ofNat_xor_shiftRight (word k m : Nat) (h : 8 * m + 8 ≤ k) :
    UInt8.ofNat ((word ^^^ (word >>> k) <<< k) >>> (8 * m)) =
      UInt8.ofNat (word >>> (8 * m)) := by
  apply UInt8.toNat_inj.1
  simp only [UInt8.toNat_ofNat']
  apply Nat.eq_of_testBit_eq
  intro i
  simp only [Nat.testBit_mod_two_pow, Nat.testBit_shiftRight, Nat.testBit_xor,
    Nat.testBit_shiftLeft]
  rcases Nat.lt_or_ge i 8 with hi | hi
  · simp [show ¬ k ≤ 8 * m + i by omega]
  · simp [Nat.not_lt.2 hi]

theorem toList_pushWord (bytes : Bytes) (n word levels : Nat) :
    (pushWord bytes n word levels).toList =
      bytes.toList ++ (List.range n).map fun i =>
        UInt8.ofNat (word >>> (8 * (n - 1 - i))) := by
  induction levels generalizing bytes n word with
  | zero => exact toList_pushBytes word bytes n
  | succ level ih =>
    rw [pushWord]
    split
    · exact toList_pushBytes word bytes n
    · simp only
      rw [ih, ih, List.append_assoc]
      refine congrArg _ ?_
      have hn : n = (n - n / 2) + n / 2 := by omega
      conv => rhs; rw [hn, List.range_add, List.map_append, List.map_map]
      congr 1
      · refine List.map_congr_left fun i hi => ?_
        have hi := List.mem_range.1 hi
        rw [← Nat.shiftRight_add]
        congr 2
        omega
      · refine List.map_congr_left fun i hi => ?_
        have hi := List.mem_range.1 hi
        rw [ofNat_xor_shiftRight _ _ _ (by omega)]
        simp only [Function.comp_apply]
        congr 2
        omega

@[simp] theorem size_ofWord (n word : Nat) : (ofWord n word).size = n := by
  rw [ofWord, ← Array.length_toList, toList_pushWord]
  simp

-- ================================================================= text

/-- Hexadecimal digits of a number, lower case, no leading zeros. -/
def hexOfNat (n : Nat) : String :=
  let digits := (ofWord (n.log2 / 8 + 1) n).toList.flatMap fun x =>
    [Nat.digitChar (x.toNat / 16), Nat.digitChar (x.toNat % 16)]
  match digits.dropWhile (· == '0') with
  | [] => "0"
  | digits => String.ofList digits

/-- A word as text: sign, `0x`, lower-case digits. -/
def hexOfWord : Int → String
  | .ofNat n => "0x" ++ hexOfNat n
  | .negSucc n => "-0x" ++ hexOfNat (n + 1)

end Bytes

def WordError.message : WordError → String
  | .negativeShift => "negative shift count"
  | .tooWide word width =>
      s!"Word does not fit in {width} bytes: {Bytes.hexOfWord word}"
  | .noSuchBit position width =>
      s!"Bit position {position} outside [0, {width})"
  | .unequalLengths left right => s!"XOR length mismatch: {left} != {right}"
  | .wrongLength index actual expected =>
      s!"Value {index} has length {actual}, expected {expected}"

namespace Bytes

-- =============================================================== limits

/-- A word has a `width`-byte value. A negative word never has; a
negative width makes the range test itself senseless. -/
def checkWidth (word width : Int) : Except WordError Unit :=
  match word, width with
  | .negSucc _, _ => .error (.tooWide word width)
  | .ofNat _, .negSucc _ => .error .negativeShift
  | .ofNat w, .ofNat n =>
      if w >>> (8 * n) = 0 then .ok () else .error (.tooWide word width)

/-- The `width`-byte value of a word, if the word has one. -/
def ofWord? (word width : Int) : Except WordError Bytes :=
  match checkWidth word width with
  | .ok () => .ok (ofWord width.toNat word.toNat)
  | .error e => .error e

-- ============================================================== one bit

/-- There is a bit at `position` among `width` bits. -/
def checkPosition (position width : Int) : Except WordError Unit :=
  if 0 ≤ position ∧ position < width then .ok ()
  else .error (.noSuchBit position width)

/-- The word in which only the bit at `position` is set. -/
def bitMask (position width : Int) : Except WordError Nat :=
  match checkPosition position width with
  | .ok () => .ok (1 <<< (width - 1 - position).toNat)
  | .error e => .error e

/-- The bit at `position` of a `width`-bit word. Negative words count
as having infinitely many leading ones; positions left of the word
read the sign. -/
def bitAt (word position width : Int) : Except WordError Nat :=
  match width - 1 - position with
  | .ofNat k => .ok ((word >>> k) % 2).toNat
  | .negSucc _ => .error .negativeShift

end Bytes

end XorSpan
