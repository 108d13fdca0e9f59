/-
XOR sums of words. A sum does not depend on the order of its words, a
word added twice is not there, and a sum of words that fit in so many
bits fits in them too.

`markedSum` is the sum over the places that carry a mark. Turning one
mark over changes it by the value of that place (`markedSum_toggle`);
this is the step behind every argument by parity, whether the marks say
that a value has occurred an odd number of times or that a node has been
reached in an odd number of ways.
-/
import Mathlib.Algebra.Ring.Nat
import Mathlib.Data.LawfulXor.Basic
import Mathlib.Data.List.Nodup

namespace XorSpan

/-- The XOR of the words of a list. -/
def xorSum (words : List Nat) : Nat := words.foldr (· ^^^ ·) 0

@[simp] theorem xorSum_nil : xorSum [] = 0 := rfl

@[simp] theorem xorSum_cons (w : Nat) (words : List Nat) :
    xorSum (w :: words) = w ^^^ xorSum words := rfl

/-- The sum of two lists together is that of their sums. -/
theorem xorSum_append (ws vs : List Nat) :
    xorSum (ws ++ vs) = xorSum ws ^^^ xorSum vs := by
  induction ws with
  | nil => simp
  | cons w ws ih =>
    rw [List.cons_append, xorSum_cons, ih, xorSum_cons, Nat.xor_assoc]

/-- The order of the words does not matter. So lists can be gone
through from either end. -/
theorem xorSum_perm {ws vs : List Nat} (h : ws.Perm vs) :
    xorSum ws = xorSum vs := by
  induction h with
  | nil => rfl
  | cons w _ ih => rw [xorSum_cons, xorSum_cons, ih]
  | swap v w ws =>
    simp only [xorSum_cons]
    rw [← Nat.xor_assoc, ← Nat.xor_assoc, Nat.xor_comm w v]
  | trans _ _ ih₁ ih₂ => rw [ih₁, ih₂]

theorem xorSum_reverse (ws : List Nat) : xorSum ws.reverse = xorSum ws :=
  xorSum_perm (List.reverse_perm ws)

/-- A sum fits where all its words fit. -/
theorem xorSum_lt {k : Nat} {ws : List Nat}
    (h : ∀ w ∈ ws, w < 2 ^ k) : xorSum ws < 2 ^ k := by
  induction ws with
  | nil => exact Nat.two_pow_pos k
  | cons w ws ih =>
    have hw : w < 2 ^ k := h w (List.mem_cons_self ..)
    have hws : xorSum ws < 2 ^ k :=
      ih fun v hv => h v (List.mem_cons_of_mem _ hv)
    exact Nat.xor_lt_two_pow hw hws

/-- Zero words may be left out. Gathering does leave them out. -/
theorem xorSum_filter_ne_zero (ws : List Nat) :
    xorSum (ws.filter (· != 0)) = xorSum ws := by
  induction ws with
  | nil => rfl
  | cons w ws ih =>
    by_cases hw : w = 0
    · simp [hw, ih]
    · rw [List.filter_cons_of_pos (by simpa using hw), xorSum_cons,
        xorSum_cons, ih]

-- ========================================================== marked places

variable {α : Type}

/-- The XOR of the values at the places that are marked. -/
def markedSum (marked : α → Bool) (value : α → Nat) (places : List α) : Nat :=
  xorSum (places.map fun a => if marked a then value a else 0)

@[simp] theorem markedSum_nil (marked : α → Bool) (value : α → Nat) :
    markedSum marked value [] = 0 := rfl

theorem markedSum_cons (marked : α → Bool) (value : α → Nat) (a : α)
    (places : List α) :
    markedSum marked value (a :: places) =
      (if marked a then value a else 0) ^^^ markedSum marked value places := rfl

/-- Only the marks at the places themselves count. Others may be
marked as they like. -/
theorem markedSum_congr {marked other : α → Bool} {value : α → Nat}
    {places : List α} (h : ∀ a ∈ places, marked a = other a) :
    markedSum marked value places = markedSum other value places := by
  unfold markedSum
  congr 1
  refine List.map_congr_left fun a ha => ?_
  rw [h a ha]

theorem markedSum_eq_filter (marked : α → Bool) (value : α → Nat)
    (places : List α) :
    markedSum marked value places =
      xorSum ((places.filter marked).map value) := by
  induction places with
  | nil => rfl
  | cons a places ih =>
    rw [markedSum_cons, ih]
    by_cases ha : marked a = true
    · rw [List.filter_cons_of_pos ha, List.map_cons, xorSum_cons, if_pos ha]
    · rw [List.filter_cons_of_neg ha, if_neg ha, Nat.zero_xor]

/-- Turning the mark of one place over changes the sum by its value.
That is what one reference does when marks are handed down. -/
theorem markedSum_toggle {marked turned : α → Bool} {value : α → Nat}
    {places : List α} {a : α}
    (hnodup : places.Nodup) (ha : a ∈ places) (hturn : turned a = !marked a)
    (hkeep : ∀ b, b ≠ a → turned b = marked b) :
    markedSum turned value places =
      value a ^^^ markedSum marked value places := by
  obtain ⟨before, after, rfl⟩ := List.append_of_mem ha
  obtain ⟨hna, -⟩ := List.nodup_cons.1 (List.nodup_middle.1 hnodup)
  have hbefore : markedSum turned value before =
      markedSum marked value before :=
    markedSum_congr fun b hb => hkeep b fun h =>
      hna (h ▸ List.mem_append_left _ hb)
  have hafter : markedSum turned value after = markedSum marked value after :=
    markedSum_congr fun b hb => hkeep b fun h =>
      hna (h ▸ List.mem_append_right _ hb)
  have hsplit (m : α → Bool) : markedSum m value (before ++ a :: after) =
      markedSum m value before ^^^
        ((if m a then value a else 0) ^^^ markedSum m value after) := by
    unfold markedSum
    rw [List.map_append, xorSum_append, List.map_cons, xorSum_cons]
  have hterm : (if turned a then value a else 0) =
      value a ^^^ (if marked a then value a else 0) := by
    rw [hturn]
    cases marked a <;> simp
  rw [hsplit, hsplit, hbefore, hafter, hterm]
  simp only [Nat.xor_assoc]
  rw [← Nat.xor_assoc, Nat.xor_comm (markedSum marked value before) (value a),
    Nat.xor_assoc]

/-- A single mark picks the value of its place. At first only the root
is marked, so the sum is what the root is worth. -/
theorem markedSum_single {marked : α → Bool} {value : α → Nat}
    {places : List α} {a : α}
    (hnodup : places.Nodup) (ha : a ∈ places)
    (hmarked : ∀ b, marked b = true ↔ b = a) :
    markedSum marked value places = value a := by
  have hnone : markedSum (fun _ => false) value places = 0 := by
    rw [markedSum_eq_filter]
    simp
  have htoggle : markedSum marked value places =
      value a ^^^ markedSum (fun _ => false) value places := by
    refine markedSum_toggle hnodup ha ((hmarked a).2 rfl) ?_
    intro b hb
    rw [← Bool.not_eq_true, hmarked]
    exact hb
  rw [htoggle, hnone, Nat.xor_zero]

/-- Places whose value is zero may be left out. In the end these are
the nodes that are not leaves. -/
theorem markedSum_filter {marked : α → Bool} {value : α → Nat}
    {places : List α} {p : α → Bool}
    (h : ∀ a ∈ places, p a = false → value a = 0) :
    markedSum marked value places =
      markedSum marked value (places.filter p) := by
  induction places with
  | nil => rfl
  | cons a places ih =>
    obtain ⟨ha, hplaces⟩ := List.forall_mem_cons.1 h
    cases hp : p a with
    | true =>
      rw [List.filter_cons_of_pos hp, markedSum_cons,
        markedSum_cons, ih hplaces]
    | false =>
      rw [List.filter_cons_of_neg (by simp [hp]), markedSum_cons, ha hp,
        ite_self, Nat.zero_xor, ih hplaces]

-- ============================================================== parities

/-- Adding bits is adding numbers, as far as their parity goes. -/
theorem mod_two_xor_mod_two (m n : Nat) : m % 2 ^^^ n % 2 = (m + n) % 2 := by
  rcases Nat.mod_two_eq_zero_or_one m with hm | hm <;>
    rcases Nat.mod_two_eq_zero_or_one n with hn | hn <;>
    rw [hm, hn, Nat.add_mod, hm, hn] <;> rfl

/-- The XOR of parities is the parity of the sum. So numbers of ways
can be added up as words with one bit. -/
theorem xorSum_mod_two (count : α → Nat) (items : List α) :
    xorSum (items.map fun a => count a % 2) = (items.map count).sum % 2 := by
  induction items with
  | nil => rfl
  | cons a items ih =>
    rw [List.map_cons, xorSum_cons, ih, List.map_cons, List.sum_cons,
      mod_two_xor_mod_two]

end XorSpan
