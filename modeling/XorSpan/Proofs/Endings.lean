/-
How solving can end. It returns a list, or it fails with one of the faults
that solving is documented to end in (`Documented`): the input is refused,
the pool is not diverse enough, something is inconsistent, or the run is
cancelled.

There is one more way, which the input checks do not guard against. Every
pass leaves a receipt, the receipt of the sweep commits to the pool
through its frame, and a frame has two bytes for the length of its values
and four for their number. So a solvable input of values longer than that
is not answered at all: whatever the level, its receipt is refused
(`solve_endings`). The zero target over enough zero entries is such an
input (`solve_long_zeros`).
-/
import XorSpan.Proofs.Cancellation

namespace XorSpan

open Job

variable {target : Bytes} {pool : List Bytes} {s : Solution} {level : Level}

-- ================================================================= endings

/-- The faults that solving bytes is documented to end in. -/
inductive Documented : Fault → Prop
  | emptyTarget : Documented .emptyTarget
  | lengthMismatch (index expected actual : Nat) :
      Documented (.lengthMismatch index expected actual)
  | insufficientCandidates (required actual : Nat) :
      Documented (.insufficientCandidates required actual)
  | unsolvable (bit : Nat) : Documented (.unsolvable bit)
  | defect (stage : Stage) (what : Defect) : Documented (.defect stage what)
  | cancelled (stage : Stage) : Documented (.cancelled stage)

/-- Why a value list of an accepted input has no frame. -/
inductive Unframed (target : Bytes) (pool : List Bytes) : FrameError → Prop
  | tooLong (h : 0xffff < target.size) :
      Unframed target pool (.tooLong target.size)
  | poolTooMany (h : 0xffffffff < pool.length) :
      Unframed target pool (.tooMany pool.length)
  | computedTooMany {s : Solution}
      (found : (Solution.find target pool).outcome = .ok s)
      (h : 0xffffffff < s.computed.length) :
      Unframed target pool (.tooMany s.computed.length)

/-- What solving an input comes to. -/
inductive Ending (target : Bytes) (pool : List Bytes) :
    Except Fault (List Bytes) → Prop
  | answered (values : List Bytes) : Ending target pool (.ok values)
  | documented {e : Fault} (h : Documented e) : Ending target pool (.error e)
  | unframed {e : FrameError} (accepted : Solution.Accepted target pool)
      (reason : Unframed target pool e) :
      Ending target pool (.error (.receipt (.frame e)))

theorem Solution.Refused.documented {e : Fault}
    (h : Solution.Refused target pool e) :
    Documented e := by
  cases h with
  | empty => exact .emptyTarget
  | mismatch => exact .lengthMismatch ..
  | few => exact .insufficientCandidates ..

-- ============================================================ its receipt

theorem Solution.Accepted.pool_ne_nil (h : Solution.Accepted target pool) :
    pool ≠ [] := by
  intro hnil
  have henough := h.enough
  rw [hnil, List.length_nil] at henough
  exact h.nonempty (by omega)

/-- The pool of a wide input has no frame, so neither has the sweep a
receipt. -/
theorem write_solveReceipt_of_long (hs : Solution.Sound target pool s)
    (hacc : Solution.Accepted target pool) (hlong : 0xffff < target.size) :
    Receipt.write "solve" (Answer.solveReceipt s) =
      .error (.frame (.tooLong target.size)) := by
  have hpool : Frame.encode s.pool = .error (.tooLong target.size) := by
    rw [hs.pool_eq]
    exact Frame.encode_of_lt hacc.sizes hacc.pool_ne_nil hlong
  exact (Answer.refuses_solveReceipt_of_pool hpool).write "solve"

/-- The receipt of a sweep over an accepted input is written, or there
is a reason why not. -/
theorem write_solveReceipt_cases (hs : Solution.Sound target pool s)
    (hacc : Solution.Accepted target pool)
    (hfound : (Solution.find target pool).outcome = .ok s) :
    (target.size ≤ 0xffff ∧ pool.length ≤ 0xffffffff ∧
      ∃ r, Receipt.write "solve" (Answer.solveReceipt s) = .ok r) ∨
    ∃ e, Receipt.write "solve" (Answer.solveReceipt s) = .error (.frame e) ∧
      Unframed target pool e := by
  by_cases hlong : 0xffff < target.size
  · exact .inr ⟨_, write_solveReceipt_of_long hs hacc hlong, .tooLong hlong⟩
  · have hwidth : target.size ≤ 0xffff := Nat.not_lt.1 hlong
    have hpool := Frame.encode_eq hacc.sizes hwidth
    have hcomputed := Frame.encode_eq hs.sizes hwidth
    rw [← hs.pool_eq] at hpool
    by_cases hpoolmany : s.pool.length > 0xffffffff
    · rw [if_pos hpoolmany] at hpool
      refine .inr ⟨_, (Answer.refuses_solveReceipt_of_pool hpool).write "solve",
        ?_⟩
      rw [hs.pool_eq] at hpoolmany ⊢
      exact .poolTooMany hpoolmany
    · rw [if_neg hpoolmany] at hpool
      by_cases hmany : s.computed.length > 0xffffffff
      · rw [if_pos hmany] at hcomputed
        exact .inr
          ⟨_, (Answer.refuses_solveReceipt hpool hcomputed).write "solve",
            .computedTooMany hfound hmany⟩
      · rw [if_neg hmany] at hcomputed
        rw [hs.pool_eq] at hpoolmany
        exact .inl ⟨hwidth, Nat.not_lt.1 hpoolmany,
          (Answer.writes_solveReceipt hpool hcomputed).write "solve"⟩

theorem scripted_find_of_receipt_error {e : ReceiptError}
    (hfind : Scripted (Solution.find target pool) (.ok s))
    (hreceipt : Receipt.write "solve" (Answer.solveReceipt s) = .error e) :
    Scripted (Answer.find level target pool) (.error (.receipt e)) := by
  unfold Answer.find
  exact hfind.bind (scripted_receipt_error hreceipt).bind_error

theorem scripted_solve_of_receipt_error {e : ReceiptError}
    (hfind : Scripted (Solution.find target pool) (.ok s))
    (hreceipt : Receipt.write "solve" (Answer.solveReceipt s) = .error e) :
    Scripted (solve level target pool) (.error (.receipt e)) := by
  unfold solve
  exact (scripted_find_of_receipt_error hfind hreceipt).bind_error

-- ================================================================= solving

/-- From a solution on, either level ends as it should or for want of
a frame. -/
theorem exists_ending_of_sound (hs : Solution.Sound target pool s)
    (hacc : Solution.Accepted target pool)
    (hfind : Scripted (Solution.find target pool) (.ok s)) (level : Level) :
    ∃ r, Scripted (solve level target pool) r ∧ Ending target pool r := by
  rcases write_solveReceipt_cases hs hacc hfind.outcome_eq with
    ⟨hwidth, hcount, r, hr⟩ | ⟨e, he, hreason⟩
  · obtain ⟨a, hrun, -⟩ := exists_scripted_answer hs hacc.sizes hwidth
      hcount hfind hr level
    exact ⟨_, hrun.bind (scripted_pure _), .answered a.values⟩
  · exact ⟨_, scripted_solve_of_receipt_error hfind he, .unframed hacc hreason⟩

theorem exists_ending (level : Level) (target : Bytes) (pool : List Bytes) :
    ∃ r, Scripted (solve level target pool) r ∧ Ending target pool r := by
  obtain ⟨r, hfind, hfinding⟩ := Solution.exists_scripted_find target pool
  have hfails : ∀ {e : Fault}, r = .error e →
      Scripted (solve level target pool) (.error e) := by
    intro e he
    rw [he] at hfind
    unfold solve Answer.find
    exact hfind.bind_error.bind_error
  cases hfinding with
  | refused reason => exact ⟨_, hfails rfl, .documented reason.documented⟩
  | unsolvable => exact ⟨_, hfails rfl, .documented (.unsolvable _)⟩
  | zero accepted zero =>
    exact exists_ending_of_sound
      (Solution.Finding.zero accepted zero).sound accepted hfind level
  | found accepted _ _ sound =>
    exact exists_ending_of_sound sound accepted hfind level

/-- Values that are too long for a frame are never returned, though
there is a combination. -/
theorem solve_of_long (hlong : 0xffff < target.size)
    (hfound : (Solution.find target pool).outcome = .ok s) :
    (solve level target pool).outcome =
      .error (.receipt (.frame (.tooLong target.size))) := by
  obtain ⟨r, hfind, hfinding⟩ := Solution.exists_scripted_find target pool
  rw [hfind.outcome_eq] at hfound
  subst hfound
  have hreceipt := write_solveReceipt_of_long hfinding.sound
    hfinding.accepted hlong
  exact (scripted_solve_of_receipt_error hfind hreceipt).outcome_eq

/-- Under any signal, solving bytes returns a list or fails as
documented, or it is refused a receipt for values that no frame can
hold. That does happen, and to every input of values longer than 65535
bytes for which there is a combination. -/
theorem solve_endings (level : Level) (target : Bytes) (pool : List Bytes) :
    (∀ signal, Ending target pool ((solve level target pool).start signal).1) ∧
    (0xffff < target.size → ∀ s, (Solution.find target pool).outcome = .ok s →
      (solve level target pool).outcome =
        .error (.receipt (.frame (.tooLong target.size)))) := by
  refine ⟨?_, fun hlong s hfound => solve_of_long hlong hfound⟩
  intro signal
  obtain ⟨r, hsolve, hending⟩ := exists_ending level target pool
  rcases hsolve.start_cases signal with hr | ⟨stage, hstage⟩
  · rw [hr]
    exact hending
  · rw [hstage]
    exact .documented (.cancelled stage)

/-- An answer is made of a solution, as its level says. -/
theorem exists_valuesOf_of_find {a : Answer}
    (h : (Answer.find level target pool).outcome = .ok a) :
    ∃ s, Solution.Finding target pool (.ok s) ∧
    ValuesOf target pool s level a.values := by
  obtain ⟨r, hfind, hfinding⟩ := Solution.exists_scripted_find target pool
  cases r with
  | error e =>
    have hfails : Scripted (Answer.find level target pool) (.error e) := by
      unfold Answer.find
      exact hfind.bind_error
    rw [hfails.outcome_eq] at h
    cases h
  | ok s =>
    rcases write_solveReceipt_cases hfinding.sound hfinding.accepted
      hfind.outcome_eq with
      ⟨hwidth, hcount, r, hr⟩ | ⟨e, he, -⟩
    · obtain ⟨a', hrun, hvalues⟩ := exists_scripted_answer hfinding.sound
        hfinding.accepted.sizes hwidth hcount hfind hr level
      rw [hrun.outcome_eq] at h
      cases h
      exact ⟨s, hfinding, hvalues⟩
    · rw [(scripted_find_of_receipt_error hfind he).outcome_eq] at h
      cases h

-- ============================================================ a long target

/-- The empty sum is a combination for the zero target. -/
theorem exists_find_of_isZero (hacc : Solution.Accepted target pool)
    (hzero : target.isZero = true) :
    ∃ s, (Solution.find target pool).outcome = .ok s := by
  have hfinding := Solution.finding target pool
  generalize (Solution.find target pool).outcome = r at hfinding
  cases hfinding with
  | refused reason => exact absurd hacc reason.not_accepted
  | zero => exact ⟨_, rfl⟩
  | found => exact ⟨_, rfl⟩
  | unsolvable _ nonzero =>
    rw [hzero] at nonzero
    cases nonzero

/-- The zero target of `n` bytes over copies of itself. -/
theorem accepted_zeros {n count : Nat} (hn : n ≠ 0) (hcount : 8 * n ≤ count) :
    Solution.Accepted (Bytes.zeros n) (List.replicate count
      (Bytes.zeros n)) := by
  refine ⟨?_, ?_, ?_⟩
  · rw [Bytes.size_zeros]
    exact hn
  · intro v hv
    rw [(List.mem_replicate.1 hv).2]
  · rw [Bytes.size_zeros, List.length_replicate]
    exact hcount

/-- With one byte more than a frame can hold, it ends in a fault that
is not documented, where the empty list was to be returned. -/
theorem solve_long_zeros : ∃ e,
    (solve .base (Bytes.zeros 65536)
      (List.replicate 524288 (Bytes.zeros 65536))).outcome = .error e ∧
    ¬Documented e := by
  have hlong : 0xffff < (Bytes.zeros 65536).size := by
    rw [Bytes.size_zeros]
    decide
  have hzero : (Bytes.zeros 65536).isZero = true :=
    (Bytes.isZero_iff _).2 (Bytes.toWord_zeros 65536)
  obtain ⟨s, hs⟩ := exists_find_of_isZero
    (accepted_zeros (show 65536 ≠ 0 by decide)
      (show 8 * 65536 ≤ 524288 by decide)) hzero
  exact ⟨_, solve_of_long hlong hs, fun h => nomatch h⟩

end XorSpan
