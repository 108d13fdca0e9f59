/-
Sums of values. `xorAll` adds values byte by byte; the program adds their
words and writes the total back. The two agree (`sum_eq_ok_iff`), and the
program refuses a sum exactly when a summand has another length.

What the program keeps of a list, the values that occur an odd number of
times, is a list without repetitions and has the sum of the whole.
-/
import XorSpan.Fault
import XorSpan.Proofs.Tables
import XorSpan.Proofs.Words
import XorSpan.Proofs.XorSum

namespace XorSpan

namespace Bytes

variable {n : Nat} {values : List Bytes}

-- ======================================================== byte by byte

/-- The bytewise XOR of values of `n` bytes. -/
def xorAll (n : Nat) (values : List Bytes) : Bytes := values.foldr xor (zeros n)

theorem size_xorAll (h : ∀ v ∈ values,
    v.size = n) : (xorAll n values).size = n := by
  induction values with
  | nil => simp [xorAll]
  | cons v values ih =>
    obtain ⟨hv, hvalues⟩ := List.forall_mem_cons.1 h
    show (v.xor (xorAll n values)).size = n
    rw [size_xor, ih hvalues, hv, Nat.min_self]

/-- Added byte by byte, the words are added up. It takes values of one
length, since only these are added byte by byte without loss. -/
theorem toWord_xorAll (h : ∀ v ∈ values, v.size = n) :
    (xorAll n values).toWord = xorSum (values.map toWord) := by
  induction values with
  | nil => simp [xorAll]
  | cons v values ih =>
    obtain ⟨hv, hvalues⟩ := List.forall_mem_cons.1 h
    show (v.xor (xorAll n values)).toWord = _
    rw [toWord_xor (by rw [hv, size_xorAll hvalues]), ih hvalues]
    rfl

-- ======================================================= word by word

/-- A sum goes on from the word it has so far, and values of one
length cannot stop it. -/
theorem sumFrom_eq (index word : Nat) (h : ∀ v ∈ values, v.size = n) :
    sumFrom n index word values =
      .ok (word ^^^ xorSum (values.map toWord)) := by
  induction values generalizing index word with
  | nil => simp [sumFrom]
  | cons v values ih =>
    obtain ⟨hv, hvalues⟩ := List.forall_mem_cons.1 h
    rw [sumFrom, if_pos (by rw [hv]), ih _ _ hvalues, List.map_cons,
      xorSum_cons, Nat.xor_assoc]

/-- A summand of another length ends the sum. So a sum that comes
through had none. -/
theorem size_of_sumFrom_eq_ok {index word total : Nat}
    (h : sumFrom n index word values = .ok total) :
    ∀ v ∈ values, v.size = n := by
  induction values generalizing index word with
  | nil => simp
  | cons v values ih =>
    rw [sumFrom] at h
    split at h
    · next hv => exact List.forall_mem_cons.2 ⟨Int.ofNat_inj.1 hv, ih h⟩
    · cases h

/-- A word that fits has a value. The check counts bits, where the
word is compared with a power. -/
theorem checkWidth_eq_ok {word : Nat} (h : word < 2 ^ (8 * n)) :
    checkWidth (Int.ofNat word) (Int.ofNat n) = .ok () := by
  have hfit : word >>> (8 * n) = 0 := by
    rw [Nat.shiftRight_eq_div_pow, Nat.div_eq_of_lt h]
  exact if_pos hfit

theorem ofWord?_eq_ok {word : Nat} (h : word < 2 ^ (8 * n)) :
    ofWord? (Int.ofNat word) n = .ok (ofWord n word) := by
  have hwidth : checkWidth (Int.ofNat word) n = .ok () := checkWidth_eq_ok h
  rw [ofWord?, hwidth]
  rfl

/-- So values of one length have a sum, which is their XOR. -/
theorem sum_eq (h : ∀ v ∈ values, v.size = n) :
    sum values n = .ok (xorAll n values) := by
  have hlt : xorSum (values.map toWord) < 2 ^ (8 * n) := by
    refine xorSum_lt fun w hw => ?_
    obtain ⟨v, hv, rfl⟩ := List.mem_map.1 hw
    rw [← h v hv]
    exact v.toWord_lt
  have hvalue : ofWord n (xorSum (values.map toWord)) = xorAll n values := by
    rw [← toWord_xorAll h]
    exact ofWord_toWord_of_size (size_xorAll h)
  rw [sum, sumFrom_eq 0 0 h, Nat.zero_xor]
  show ofWord? (Int.ofNat (xorSum (values.map toWord))) n = _
  rw [ofWord?_eq_ok hlt, hvalue]

/-- A sum is refused exactly when a summand has another length. If it
is not, it is the XOR of all of them. -/
theorem sum_eq_ok_iff {total : Bytes} :
    sum values n = .ok total ↔
    (∀ v ∈ values, v.size = n) ∧ xorAll n values = total := by
  constructor
  · intro h
    have hsizes : ∀ v ∈ values, v.size = n := by
      cases hs : sumFrom n 0 0 values with
      | error e => rw [sum, hs] at h; cases h
      | ok word => exact size_of_sumFrom_eq_ok hs
    rw [sum_eq hsizes] at h
    exact ⟨hsizes, Except.ok.inj h⟩
  · intro hall
    obtain ⟨hsizes, rfl⟩ := hall
    exact sum_eq hsizes

-- =========================================================== odd values

/-- Values that occur an odd number of times, each where it first
does. -/
theorem oddOnes_eq (values : List Bytes) :
    oddOnes values = values.eraseDups.filter fun v =>
      values.count v % 2 = 1 := by
  rw [oddOnes, Table.toList_tally, List.filterMap_map,
    ← List.filterMap_eq_filter]
  refine List.filterMap_congr fun v _ => ?_
  simp [Option.guard]

theorem nodup_oddOnes (values : List Bytes) : (oddOnes values).Nodup := by
  rw [oddOnes_eq]
  exact (Table.nodup_eraseDups values).filter _

/-- A value is among them exactly if it occurs an odd number of times. -/
theorem mem_oddOnes {values : List Bytes} {v : Bytes} :
    v ∈ oddOnes values ↔ values.count v % 2 = 1 := by
  rw [oddOnes_eq, List.mem_filter, List.mem_eraseDups, decide_eq_true_eq]
  refine ⟨And.right, fun h => ⟨?_, h⟩⟩
  by_contra hv
  rw [List.count_eq_zero_of_not_mem hv] at h
  cases h

theorem mem_of_mem_oddOnes {values : List Bytes} {v : Bytes}
    (h : v ∈ oddOnes values) :
    v ∈ values := by
  rw [oddOnes_eq, List.mem_filter, List.mem_eraseDups] at h
  exact h.1

theorem length_oddOnes_le (values : List Bytes) :
    (oddOnes values).length ≤ values.length :=
  List.Nodup.length_le_of_subset (nodup_oddOnes values) fun _ hv =>
    mem_of_mem_oddOnes hv

/-- Marking what has occurred an odd number of times so far marks the
whole sum: one more item turns one mark over. -/
theorem markedSum_odd {places values : List Bytes} (value : Bytes → Nat)
    (hnodup : places.Nodup) (hsub : ∀ v ∈ values, v ∈ places) :
    markedSum (fun v => values.count v % 2 = 1) value places =
      xorSum (values.map value) := by
  induction values with
  | nil =>
    rw [markedSum_eq_filter]
    simp
  | cons v values ih =>
    obtain ⟨hv, hvalues⟩ := List.forall_mem_cons.1 hsub
    rw [List.map_cons, xorSum_cons, ← ih hvalues]
    refine markedSum_toggle hnodup hv ?_ fun u hu => ?_
    · rw [List.count_cons_self, ← decide_not]
      refine decide_eq_decide.2 ?_
      omega
    · rw [List.count_cons_of_ne (Ne.symm hu)]

/-- Pairs cancel, so dropping them leaves the sum as it is. The value
may be any word that goes with the item. -/
theorem xorSum_oddOnes (value : Bytes → Nat) (values : List Bytes) :
    xorSum ((oddOnes values).map value) = xorSum (values.map value) := by
  rw [oddOnes_eq, ← markedSum_eq_filter]
  exact markedSum_odd value (Table.nodup_eraseDups values) fun v hv =>
    List.mem_eraseDups.2 hv

/-- What is dropped comes in pairs. That is what makes the numbers of
values and of contributions differ by an even number. -/
theorem exists_length_oddOnes (values : List Bytes) :
    ∃ pairs, values.length = (oddOnes values).length + 2 * pairs := by
  have hlength : ∀ vs : List Bytes, xorSum (vs.map fun _ => 1) =
      vs.length % 2 := by
    intro vs
    have hsum : (vs.map fun _ => 1).sum = vs.length := by simp
    rw [← hsum]
    exact xorSum_mod_two (fun _ => 1) vs
  have hparity := xorSum_oddOnes (fun _ => 1) values
  rw [hlength, hlength] at hparity
  have hle := length_oddOnes_le values
  exact ⟨(values.length - (oddOnes values).length) / 2, by omega⟩

end Bytes

/-- A list passes the check exactly when its values are as long as the
target and add up to it. -/
theorem checkSum_eq_ok_iff {stage : Stage} {target : Bytes}
    {values : List Bytes} :
    checkSum stage target values = .ok () ↔
      (∀ v ∈ values, v.size = target.size) ∧
      Bytes.xorAll target.size values = target := by
  unfold checkSum
  split
  · next e he =>
    constructor
    · intro h
      cases h
    · intro hall
      obtain ⟨hsizes, -⟩ := hall
      rw [Bytes.sum_eq hsizes] at he
      cases he
  · next total htotal =>
    obtain ⟨hsizes, hsum⟩ := Bytes.sum_eq_ok_iff.1 htotal
    split
    · next h => exact ⟨fun _ => ⟨hsizes, hsum.trans h⟩, fun _ => rfl⟩
    · next h =>
      constructor
      · intro h
        cases h
      · intro hall
        obtain ⟨-, hxor⟩ := hall
        exact absurd (hsum.symm.trans hxor) h

/-- Adding up fails as a defect, whatever the reason. The stage that
asked is named in it. -/
theorem exists_defect_of_checkSum {stage : Stage} {target : Bytes}
    {values : List Bytes}
    {e : Fault} (h : checkSum stage target values = .error e) :
    ∃ what, e = .defect stage what := by
  unfold checkSum at h
  split at h
  · cases h
    exact ⟨_, rfl⟩
  · split at h
    · cases h
    · cases h
      exact ⟨_, rfl⟩

/-- The check, in words: it passes if the words add up. That is how
the sweep and the reduction pass theirs. -/
theorem checkSum_of_xorSum {stage : Stage} {target : Bytes}
    {values : List Bytes}
    (hsizes : ∀ v ∈ values, v.size = target.size)
    (hsum : xorSum (values.map Bytes.toWord) = target.toWord) :
    checkSum stage target values = .ok () := by
  refine checkSum_eq_ok_iff.2 ⟨hsizes, ?_⟩
  refine Bytes.eq_of_toWord_eq (Bytes.size_xorAll hsizes) ?_
  rw [Bytes.toWord_xorAll hsizes, hsum]

end XorSpan
