/-
Requests about bytes. A request takes data of any kind and reads what it
needs of them as it comes to them; where the data are bytes, nothing is
left to read, and the request is answered by the operation itself.

Where a request asks for a value of so many bytes, there has to be room
for them: that is asked first, and nothing here says how it is answered.
-/
import XorSpan.Request

namespace XorSpan.Request

open Reply

variable {values : List Bytes} {width : Int}

-- ============================================================= one value

theorem length_bytes (b : Bytes) : length (.bytes b) = .ok b.size := rfl

theorem word_bytes (b : Bytes) : Request.word (.bytes b) = .ok b.toWord := rfl

theorem value_eq (word : Int) (hroom : Capacity.checkValue width = .ok ()) :
    value word width = (Bytes.ofWord? word width).mapError .word := by
  unfold value Bytes.ofWord?
  rw [hroom]
  cases Bytes.checkWidth word width with
  | error e => rfl
  | ok u => rfl

theorem xor_bytes (a b : Bytes) :
    xor (.bytes a) (.bytes b) = (Bytes.xor? a b).mapError .word := by
  unfold xor
  rw [length_bytes, length_bytes]
  dsimp only [bind, Except.bind]
  by_cases h : a.size = b.size
  · rw [if_neg (Decidable.not_not.2 h)]
    rfl
  · unfold Bytes.xor?
    rw [if_neg h, if_pos h]
    rfl

-- ================================================================== sums

theorem sumFrom_bytes (index word : Nat) :
    sumFrom width index word (values.map .bytes) =
    (Bytes.sumFrom width index word values).mapError .word := by
  induction values generalizing index word with
  | nil => rfl
  | cons v values ih =>
    rw [List.map_cons, sumFrom, Bytes.sumFrom, length_bytes]
    dsimp only [bind, Except.bind]
    by_cases h : (v.size : Int) = width
    · rw [if_pos h, if_neg (Decidable.not_not.2 h), word_bytes]
      exact ih _ _
    · rw [if_neg h, if_pos h]
      rfl

theorem sum_bytes (hroom : Capacity.checkValue width = .ok ()) :
    sum (values.map .bytes) width =
      (Bytes.sum values width).mapError .word := by
  unfold sum Bytes.sum
  rw [sumFrom_bytes]
  cases Bytes.sumFrom width 0 0 values with
  | error e => rfl
  | ok word => exact value_eq _ hroom

-- =========================================================== odd values

/-- A step that puts bytes in front of what was entered before them. -/
theorem foldlM_bytes {enter : Roll × List Bytes → Datum →
    Except KindError (Roll × List Bytes)}
    {r : Roll} (henter : ∀ names b, enter (r, names) (.bytes b) =
      .ok (r, b :: names))
    (names : List Bytes) :
    (values.map .bytes).foldlM enter (r, names) =
      .ok (r, values.reverse ++ names) := by
  induction values generalizing names with
  | nil => rfl
  | cons v values ih =>
    rw [List.map_cons, List.foldlM_cons, henter, List.reverse_cons,
      List.append_assoc]
    exact ih (v :: names)

/-- Bytes are entered as what they are, and no strangers come on the
roll. -/
theorem enterAll_bytes (r : Roll) :
    r.enterAll (values.map .bytes) = .ok (r, values) := by
  unfold Roll.enterAll
  rw [foldlM_bytes fun _ _ => rfl]
  show Except.ok (r, (values.reverse ++ []).reverse) = _
  rw [List.append_nil, List.reverse_reverse]

/-- What is left stands for itself and is copied. -/
theorem oddOnes_bytes :
    oddOnes (values.map .bytes) = .ok (Bytes.oddOnes values) := by
  have hcopy :
      (fun name => read .copy ((Roll.blank (values.map .bytes)).datum name)) =
      fun name => (pure (id name) : Reply Bytes) := by
    funext name
    have hself : (Roll.blank (values.map .bytes)).datum name = .bytes name := by
      unfold Roll.datum Roll.stranger?
      split <;> rfl
    rw [hself]
    rfl
  unfold oddOnes
  rw [enterAll_bytes]
  show (Bytes.oddOnes values).mapM _ = _
  rw [hcopy, List.mapM_pure, List.map_id]
  rfl

end XorSpan.Request
