/-
When a pool is diverse enough. For a nonzero target, finding a
combination succeeds exactly on the pools of full rank, and on any other
pool it names the first bit at which no sum begins.

A span knows nothing of the order of its generators, and a sweep looks
for its pivots without regard to the target. So neither the order of the
pool nor the target has a say in whether and where a pool falls short
(`unsolvable_iff_of_perm`).
-/
import XorSpan.Proofs.Find
import XorSpan.Proofs.Rank

namespace XorSpan

namespace Span

/-- Lists with the same members have the same sums. Neither order nor
copies matter. -/
theorem congr {words others : List Nat} {v : Nat}
    (h : ∀ w, w ∈ words ↔ w ∈ others) :
    Span words v ↔ Span others v :=
  ⟨fun hv => hv.trans fun w hw => .of_mem ((h w).1 hw),
    fun hv => hv.trans fun w hw => .of_mem ((h w).2 hw)⟩

end Span

namespace Bytes

/-- The order of a pool has no say in where its sums begin. -/
theorem leads_iff_of_perm {n position : Nat} {pool other : List Bytes}
    (hpool : ∀ v ∈ pool, v.size = n) (h : other.Perm pool) :
    Leads n other position ↔ Leads n pool position := by
  have hother : ∀ v ∈ other, v.size = n := fun v hv => hpool v (h.mem_iff.1 hv)
  have hspan : ∀ w, Span (other.map toWord) w ↔ Span (pool.map toWord) w :=
    fun w => Span.congr fun u => (h.map toWord).mem_iff
  simp only [leads_iff hother, leads_iff hpool, hspan]

end Bytes

namespace Solution

variable {target other : Bytes} {pool reordered : List Bytes}

-- ======================================================= falling short

/-- A pool falls short at the first bit at which none of its sums
begins. -/
structure FallsShort (target : Bytes) (pool : List Bytes)
    (bit : Nat) : Prop where
  accepted : Accepted target pool
  nonzero : target.isZero = false
  lt : bit < 8 * target.size
  none : ¬Bytes.Leads target.size pool bit
  before : ∀ i < bit, Bytes.Leads target.size pool i

theorem FallsShort.not_spans {bit : Nat} (h : FallsShort target pool bit) :
    ¬Bytes.Spans target.size pool :=
  fun hspans =>
    h.none ((Bytes.spans_iff_leads h.accepted.sizes).1 hspans bit h.lt)

/-- There is one such bit at most. It is the first, and there is only
one first. -/
theorem FallsShort.unique {i j : Nat} (hi : FallsShort target pool i)
    (hj : FallsShort target pool j) : i = j := by
  rcases Nat.lt_trichotomy i j with hlt | heq | hlt
  · exact absurd (hj.before i hlt) hi.none
  · exact heq
  · exact absurd (hi.before j hlt) hj.none

theorem unsolvable_iff_fallsShort (target : Bytes)
    (pool : List Bytes) (bit : Nat) :
    (find target pool).outcome = .error (.unsolvable bit) ↔
    FallsShort target pool bit := by
  have hfinding := finding target pool
  generalize (find target pool).outcome = r at hfinding
  constructor
  · rintro rfl
    cases hfinding with
    | refused reason => cases reason
    | unsolvable accepted nonzero _ lt none before =>
      exact ⟨accepted, nonzero, lt, none, before⟩
  · intro h
    cases hfinding with
    | refused reason => exact absurd h.accepted reason.not_accepted
    | zero _ zero => exact absurd zero (by simp [h.nonzero])
    | found _ _ spans => exact absurd spans h.not_spans
    | unsolvable accepted nonzero _ lt none before =>
      rw [h.unique ⟨accepted, nonzero, lt, none, before⟩]

-- ==================================================== independence

theorem Accepted.perm (h : Accepted target pool)
    (hsize : other.size = target.size)
    (hperm : reordered.Perm pool) : Accepted other reordered where
  nonempty := hsize ▸ h.nonempty
  sizes v hv := (h.sizes v (hperm.mem_iff.1 hv)).trans hsize.symm
  enough := by
    rw [hsize, hperm.length_eq]
    exact h.enough

theorem FallsShort.perm {bit : Nat} (h : FallsShort target pool bit)
    (hsize : other.size = target.size) (hother : other.isZero = false)
    (hperm : reordered.Perm pool) : FallsShort other reordered bit where
  accepted := h.accepted.perm hsize hperm
  nonzero := hother
  lt := by
    rw [hsize]
    exact h.lt
  none := by
    rw [hsize, Bytes.leads_iff_of_perm h.accepted.sizes hperm]
    exact h.none
  before i hi := by
    rw [hsize, Bytes.leads_iff_of_perm h.accepted.sizes hperm]
    exact h.before i hi

/-- Whether and where a pool falls short depends neither on its order
nor on the nonzero target. -/
theorem unsolvable_iff_of_perm (hsize : other.size = target.size)
    (htarget : target.isZero = false)
    (hother : other.isZero = false) (hperm : reordered.Perm pool) (bit : Nat) :
    (find other reordered).outcome = .error (.unsolvable bit) ↔
      (find target pool).outcome = .error (.unsolvable bit) := by
  rw [unsolvable_iff_fallsShort, unsolvable_iff_fallsShort]
  exact ⟨fun h => h.perm hsize.symm htarget hperm.symm,
    fun h => h.perm hsize hother hperm⟩

/-- No run of the finder comes upon a defect. The checks that could
report one always pass. -/
theorem find_ne_defect (target : Bytes) (pool : List Bytes) (stage : Stage)
    (what : Defect) :
    (find target pool).outcome ≠ .error (.defect stage what) := by
  intro h
  have hfinding := finding target pool
  rw [h] at hfinding
  cases hfinding with
  | refused reason => cases reason

/-- What finding a combination comes to, in full: its findings; full
rank as what makes a pool span; the independence of order and target;
and that there are no defects. -/
theorem find_outcome (target : Bytes) (pool : List Bytes) :
    Finding target pool (find target pool).outcome ∧
    (Accepted target pool →
      (Bytes.Spans target.size pool ↔
        Bytes.rank target.size pool = 8 * target.size)) ∧
    (∀ other reordered bit, other.size = target.size → target.isZero = false →
      other.isZero = false → reordered.Perm pool →
      ((find other reordered).outcome = .error (.unsolvable bit) ↔
        (find target pool).outcome = .error (.unsolvable bit))) ∧
    ∀ stage what, (find target pool).outcome ≠ .error (.defect stage what) :=
  ⟨finding target pool, fun h => Bytes.spans_iff_rank_eq h.sizes,
    fun _ _ bit hsize htarget hother hperm =>
      unsolvable_iff_of_perm hsize htarget hother hperm bit,
    find_ne_defect target pool⟩

end Solution

end XorSpan
