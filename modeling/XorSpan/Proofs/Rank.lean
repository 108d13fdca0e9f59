/-
Spans as linear algebra. A value of `n` bytes is a row of `8 * n` bits
over GF(2), XOR is the sum of rows, and a pool has a rank. It reaches
every value of `n` bytes exactly when its rank is `8 * n`
(`spans_iff_rank_eq`).
-/
import Mathlib.Algebra.Field.ZMod
import Mathlib.Data.Nat.Prime.Defs
import Mathlib.LinearAlgebra.FiniteDimensional.Basic
import XorSpan.Proofs.Span

namespace XorSpan

-- =========================================================== rows of bits

/-- The lowest `m` bits of a word, as a row over GF(2). -/
def row (m w : Nat) : Fin m → ZMod 2 := fun k => if w.testBit k then 1 else 0

theorem row_zero (m : Nat) : row m 0 = 0 := by
  funext k
  simp [row]

/-- Over GF(2) the XOR is the sum. It is so bit by bit. -/
theorem row_xor (m v w : Nat) : row m (v ^^^ w) = row m v + row m w := by
  funext k
  show (if (v ^^^ w).testBit k then (1 : ZMod 2) else 0) =
    (if v.testBit k then 1 else 0) + (if w.testBit k then 1 else 0)
  rw [Nat.testBit_xor]
  cases v.testBit k <;> cases w.testBit k <;> decide

/-- A word that fits is known by its row. -/
theorem row_inj {m v w : Nat} (hv : v < 2 ^ m) (hw : w < 2 ^ m)
    (h : row m v = row m w) :
    v = w := by
  refine Nat.eq_of_testBit_eq fun k => ?_
  by_cases hk : k < m
  · have hbit : row m v ⟨k, hk⟩ = row m w ⟨k, hk⟩ := congrFun h ⟨k, hk⟩
    unfold row at hbit
    cases hbv : v.testBit k <;> cases hbw : w.testBit k <;> simp_all
  · have hle : 2 ^ m ≤ 2 ^ k :=
      Nat.pow_le_pow_right (by decide) (Nat.not_lt.1 hk)
    rw [Nat.testBit_lt_two_pow (Nat.lt_of_lt_of_le hv hle),
      Nat.testBit_lt_two_pow (Nat.lt_of_lt_of_le hw hle)]

/-- Every row is the row of a word that fits. -/
theorem exists_row_eq {m : Nat} (f : Fin m → ZMod 2) :
    ∃ w < 2 ^ m, row m w = f := by
  refine ⟨Nat.ofBits fun k => f k = 1, Nat.ofBits_lt_two_pow _, ?_⟩
  funext k
  have hcases : ∀ x : ZMod 2,
      (if decide (x = 1) then (1 : ZMod 2) else 0) = x := by decide
  unfold row
  rw [Nat.testBit_ofBits_lt _ _ k.isLt]
  exact hcases (f k)

-- ================================================================== rank

/-- Sums of words are linear combinations of their rows: over GF(2) a
row is taken or left. -/
theorem mem_span_row_iff {m : Nat} {words : List Nat} {f : Fin m → ZMod 2} :
    f ∈ Submodule.span (ZMod 2) {g | ∃ w ∈ words, g = row m w} ↔
      ∃ v, Span words v ∧ row m v = f := by
  constructor
  · intro hf
    induction hf using Submodule.span_induction with
    | mem g hg =>
      obtain ⟨w, hw, rfl⟩ := hg
      exact ⟨w, .of_mem hw, rfl⟩
    | zero => exact ⟨0, .zero, row_zero m⟩
    | add f g _ _ hf hg =>
      obtain ⟨v, hv, rfl⟩ := hf
      obtain ⟨w, hw, rfl⟩ := hg
      exact ⟨v ^^^ w, hv.xor hw, row_xor m v w⟩
    | smul c f _ hf =>
      have hcases : ∀ x : ZMod 2, x = 0 ∨ x = 1 := by decide
      rcases hcases c with rfl | rfl
      · exact ⟨0, .zero, by rw [row_zero, zero_smul]⟩
      · rwa [one_smul]
  · intro h
    obtain ⟨v, hv, rfl⟩ := h
    induction hv with
    | zero =>
      rw [row_zero]
      exact Submodule.zero_mem _
    | add hw _ ih =>
      rw [row_xor]
      exact Submodule.add_mem _ (Submodule.subset_span ⟨_, hw, rfl⟩) ih

/-- Words reach all that fits exactly when their rows span the space.
Sums of words with coefficients from the field are sums of some of
them. -/
theorem span_row_eq_top_iff {m : Nat} {words : List Nat}
    (hwords : ∀ w ∈ words, w < 2 ^ m) :
    Submodule.span (ZMod 2) {g | ∃ w ∈ words, g = row m w} = ⊤ ↔
    ∀ v < 2 ^ m, Span words v := by
  rw [Submodule.eq_top_iff']
  constructor
  · intro h v hv
    obtain ⟨u, hu, hrow⟩ := mem_span_row_iff.1 (h (row m v))
    rwa [← row_inj (hu.lt hwords) hv hrow]
  · intro h f
    obtain ⟨w, hw, hrow⟩ := exists_row_eq f
    exact mem_span_row_iff.2 ⟨w, h w hw, hrow⟩

namespace Bytes

/-- The rank over GF(2) of values of `n` bytes. -/
noncomputable def rank (n : Nat) (pool : List Bytes) : Nat :=
  Module.finrank (ZMod 2) (Submodule.span (ZMod 2) {f | ∃ v ∈ pool,
    f = row (8 * n) v.toWord})

/-- A pool reaches every value exactly when it has full rank. So
whether there is a combination for every target is a question of
linear algebra. -/
theorem spans_iff_rank_eq {n : Nat} {pool : List Bytes}
    (hpool : ∀ u ∈ pool, u.size = n) :
    Spans n pool ↔ rank n pool = 8 * n := by
  have hrows : {f | ∃ v ∈ pool, f = row (8 * n) v.toWord} =
      {f | ∃ w ∈ pool.map toWord, f = row (8 * n) w} := by
    simp only [List.mem_map, exists_exists_and_eq_and]
  have hwords : ∀ w ∈ pool.map toWord, w < 2 ^ (8 * n) := by
    intro w hw
    obtain ⟨v, hv, rfl⟩ := List.mem_map.1 hw
    rw [← hpool v hv]
    exact v.toWord_lt
  have hspans : Spans n pool ↔ ∀ v < 2 ^ (8 * n), Span (pool.map toWord) v := by
    constructor
    · intro h v hv
      rw [← toWord_ofWord hv]
      exact (isSumOf_iff hpool (size_ofWord _ _)).1 (h _ (size_ofWord _ _))
    · intro h v hv
      exact (isSumOf_iff hpool hv).2 (h _ (hv ▸ v.toWord_lt))
  rw [hspans, ← span_row_eq_top_iff hwords, rank, hrows]
  constructor
  · intro htop
    rw [htop, finrank_top, Module.finrank_fin_fun]
  · intro hrank
    exact Submodule.eq_top_of_finrank_eq
      (hrank.trans (Module.finrank_fin_fun _).symm)

end Bytes

end XorSpan
