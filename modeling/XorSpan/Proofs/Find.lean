/-
What finding a combination comes to. The outcome is a matter of the input
alone: of the lengths, then of the number of entries, then, unless the
target is zero, of what the pool spans (`Finding`). The check at the end
of the sweep and the check of the result cannot fail, because the sweep
ends with no bits to go (`Sound.scripted_ofSweep`).

Since the span of a pool knows nothing of the order of its entries, and
the sweep finds its pivots without looking at the target, whether and
where a pool falls short depends on neither.
-/
import XorSpan.Solution
import XorSpan.Proofs.Sweep.Run

namespace XorSpan

variable {target : Bytes} {pool : List Bytes}

-- ================================================================ inputs

namespace Solution

open Sweep Records

/-- There is a target, the entries of the pool are as long as it, and
there are eight of them to each of its bytes. -/
structure Accepted (target : Bytes) (pool : List Bytes) : Prop where
  nonempty : target.size ≠ 0
  sizes : ∀ v ∈ pool, v.size = target.size
  enough : 8 * target.size ≤ pool.length

/-- A pool needs eight entries for each byte of the target, which is
one for each bit. -/
theorem checkCount_eq (n entries : Nat) :
    checkCount n entries =
      if entries < 8 * n then .error (.insufficientCandidates (8 * n) entries)
        else .ok () := rfl

/-- The checks pass exactly the inputs that are accepted. So later
proofs speak of accepted inputs and not of the checks. -/
theorem checkInputs_eq_ok_iff :
    checkInputs target pool = .ok () ↔ Accepted target pool := by
  unfold checkInputs
  split
  · next h =>
    constructor
    · intro h'
      cases h'
    · intro hacc
      exact absurd h hacc.nonempty
  · next hne =>
    split
    · next i actual h =>
      constructor
      · intro h'
        cases h'
      · intro hacc
        rw [Bytes.misfit?_eq_none_iff.2 hacc.sizes] at h
        cases h
    · next h =>
      have hsizes := Bytes.misfit?_eq_none_iff.1 h
      rw [checkCount_eq]
      by_cases hlt : pool.length < 8 * target.size
      · rw [if_pos hlt]
        constructor
        · intro h'
          cases h'
        · intro hacc
          exact absurd hacc.enough (Nat.not_le.2 hlt)
      · rw [if_neg hlt]
        exact ⟨fun _ => ⟨hne, hsizes, Nat.not_lt.1 hlt⟩, fun _ => rfl⟩

/-- Inputs are refused for the first of three reasons. -/
inductive Refused (target : Bytes) (pool : List Bytes) : Fault → Prop
  | empty (h : target.size = 0) : Refused target pool .emptyTarget
  /-- An entry has another length than the target; none before it has. -/
  | mismatch {i : Nat} (nonempty : target.size ≠ 0) (hi : i < pool.length)
      (ne : pool[i].size ≠ target.size) (before : ∀ j (hj : j < i),
        pool[j].size = target.size) :
      Refused target pool (.lengthMismatch i target.size pool[i].size)
  | few (nonempty : target.size ≠ 0) (sizes : ∀ v ∈ pool, v.size = target.size)
      (lt : pool.length < 8 * target.size) :
      Refused target pool (.insufficientCandidates
        (8 * target.size) pool.length)

/-- What is refused is not accepted. The two therefore exclude each
other, and every input is one or the other. -/
theorem Refused.not_accepted {e : Fault} (h : Refused target pool e) :
    ¬Accepted target pool := by
  intro hacc
  cases h with
  | empty hempty => exact hacc.nonempty hempty
  | mismatch _ hi ne => exact ne (hacc.sizes _ (List.getElem_mem hi))
  | few _ _ lt => exact absurd hacc.enough (Nat.not_le.2 lt)

/-- And what does not pass is refused with the first reason there is:
an empty target, then an entry of another length, then too few
entries. -/
theorem refused_of_checkInputs {e : Fault}
    (h : checkInputs target pool = .error e) :
    Refused target pool e := by
  unfold checkInputs at h
  split at h
  · next hempty =>
    cases h
    exact .empty hempty
  · next hne =>
    split at h
    · next i actual hmisfit =>
      obtain ⟨hi, rfl, hsize, hbefore⟩ := Bytes.misfit?_eq_some hmisfit
      cases h
      exact .mismatch hne hi hsize hbefore
    · next hmisfit =>
      rw [checkCount_eq] at h
      by_cases hlt : pool.length < 8 * target.size
      · rw [if_pos hlt] at h
        cases h
        exact .few hne (Bytes.misfit?_eq_none_iff.1 hmisfit) hlt
      · rw [if_neg hlt] at h
        cases h

-- ================================================== the end of a sweep

/-- The solution that a sweep leaves. -/
def gathered (target : Bytes) (pool : List Bytes) (s : Sweep) : Solution :=
  let appended := s.balance.appended.reverse
  let nonzero := (appended.filter (· != 0)).map (Bytes.ofWord target.size)
  let computed := Bytes.oddOnes nonzero
  { target, pool, computed
    records := s.records
    stats := {
      bits := 8 * target.size
      contributions := appended.length
      recorded := s.recorded
      duplicates := s.duplicates
      zeros := appended.length - nonzero.length
      computed := computed.length } }

/-- What is known of a solution that was found: its values are what a
combination is, and its records close them. -/
structure Sound (target : Bytes) (pool : List Bytes) (s : Solution) : Prop where
  target_eq : s.target = target
  pool_eq : s.pool = pool
  sizes : ∀ v ∈ s.computed, v.size = target.size
  nonzero : ∀ v ∈ s.computed, v.isZero = false
  nodup : s.computed.Nodup
  sum : Bytes.xorAll target.size s.computed = target
  length_le : s.computed.length ≤ 8 * target.size * pool.length
  closed : Closed pool s.records
  accounted : ∀ v ∈ s.computed, Accounted pool s.records v

/-- Each value of the solution was added by the sweep. That is how
values come by what the sweep knows of words. -/
theorem exists_appended_of_mem {s : Sweep} {v : Bytes}
    (h : v ∈ (gathered target pool s).computed) :
    ∃ a ∈ s.balance.appended, a ≠ 0 ∧ v = Bytes.ofWord target.size a := by
  obtain ⟨a, ha, rfl⟩ := List.mem_map.1 (Bytes.mem_of_mem_oddOnes h)
  obtain ⟨hmem, hne⟩ := List.mem_filter.1 ha
  exact ⟨a, List.mem_reverse.1 hmem, by simpa using hne, rfl⟩

/-- With no bits to go, what the sweep has added is the target. The
residual has no bits left then, and it and the total make the target. -/
theorem total_eq_of_sound {s : Sweep} (h : Sweep.Sound target pool 0 s) :
    s.balance.total = target.toWord := by
  have hresidual : s.balance.residual = 0 := by simpa using h.residual_lt
  rw [← h.balanced, hresidual, Nat.xor_zero]

/-- Taking values that fit apart and together again changes no word. -/
theorem map_toWord_ofWord {n : Nat} {words : List Nat}
    (h : ∀ w ∈ words, w < 2 ^ (8 * n)) :
    (words.map (Bytes.ofWord n)).map Bytes.toWord = words := by
  rw [List.map_map]
  refine (List.map_congr_left fun w hw => ?_).trans (List.map_id _)
  exact Bytes.toWord_ofWord (h w hw)

/-- What is computed adds up to the target as well, though zero words
and words that were added twice are left out of it: neither makes a
difference to a sum. -/
theorem xorSum_computed {s : Sweep} (h : Sweep.Sound target pool 0 s) :
    xorSum ((gathered target pool s).computed.map Bytes.toWord) =
      target.toWord := by
  have hfit : ∀ a ∈ s.balance.appended.reverse.filter (· != 0),
      a < 2 ^ (8 * target.size) :=
    fun a ha => h.appended_lt a (List.mem_reverse.1 (List.mem_filter.1 ha).1)
  calc xorSum ((gathered target pool s).computed.map Bytes.toWord)
      = xorSum (((s.balance.appended.reverse.filter (· != 0)).map
          (Bytes.ofWord target.size)).map Bytes.toWord) :=
          Bytes.xorSum_oddOnes _ _
    _ = xorSum s.balance.appended := by
        rw [map_toWord_ofWord hfit, xorSum_filter_ne_zero, xorSum_reverse]
    _ = target.toWord := by rw [h.total, total_eq_of_sound h]

/-- What is gathered from a sound sweep is a sound solution. The
records are taken as they are, and the values from what was added. -/
theorem sound_gathered {s : Sweep} (h : Sweep.Sound target pool 0 s) :
    Sound target pool (gathered target pool s) := by
  have hsizes : ∀ v ∈ (gathered target pool s).computed,
      v.size = target.size := by
    intro v hv
    obtain ⟨a, -, -, rfl⟩ := exists_appended_of_mem hv
    exact Bytes.size_ofWord _ _
  refine ⟨rfl, rfl, hsizes, fun v hv => ?_, Bytes.nodup_oddOnes _,
    ?_, ?_, h.closed,
    fun v hv => ?_⟩
  · obtain ⟨a, ha, hne, rfl⟩ := exists_appended_of_mem hv
    rw [← Bool.not_eq_true, Bytes.isZero_ofWord (h.appended_lt a ha)]
    exact hne
  · refine Bytes.eq_of_toWord_eq (Bytes.size_xorAll hsizes) ?_
    rw [Bytes.toWord_xorAll hsizes, xorSum_computed h]
  · have hodd : (gathered target pool s).computed.length ≤
        s.balance.appended.length := by
      refine Nat.le_trans (Bytes.length_oddOnes_le _) ?_
      rw [List.length_map]
      refine Nat.le_trans (List.length_filter_le _ _) ?_
      exact Nat.le_of_eq (List.length_reverse ..)
    exact Nat.le_trans hodd h.appended_length
  · obtain ⟨a, ha, hne, rfl⟩ := exists_appended_of_mem hv
    exact h.appended_accounted a ha hne

/-- The two checks at the end of a sweep let every sweep pass. They
are there to catch a sweep that went wrong, and none does. -/
theorem scripted_ofSweep {s : Sweep} (h : Sweep.Sound target pool 0 s) :
    Job.Scripted (ofSweep target pool s) (.ok (gathered target pool s)) := by
  have hcheck : checkSum .result target (gathered target pool s).computed =
      .ok () :=
    checkSum_of_xorSum (sound_gathered h).sizes (xorSum_computed h)
  have hpasses :
      Job.Scripted (Job.ofExcept
        (checkSum .result target (gathered target pool s).computed))
        (.ok ()) := by
    rw [hcheck]
    exact Job.scripted_ofExcept _
  unfold ofSweep
  rw [if_neg (fun hne => hne (total_eq_of_sound h))]
  exact hpasses.bind ((Job.scripted_note _).bind ((Job.scripted_note _).bind
    (Job.scripted_pure _)))

-- ============================================================== findings

/-- What finding a combination can come to. -/
inductive Finding (target : Bytes) (pool : List Bytes) :
    Except Fault Solution → Prop
  | refused {e : Fault} (reason : Refused target pool e) :
      Finding target pool (.error e)
  /-- The zero target needs no values. -/
  | zero (accepted : Accepted target pool) (zero : target.isZero = true) :
      Finding target pool
        (.ok { target, pool, computed := [], records := .empty })
  /-- The pool reaches every value, so it reaches the target. -/
  | found {s : Solution} (accepted : Accepted target pool)
      (nonzero : target.isZero = false)
      (spans : Bytes.Spans target.size pool) (sound : Sound target pool s) :
      Finding target pool (.ok s)
  /-- The pool does not; the bit is the first at which no sum begins. -/
  | unsolvable {bit : Nat} (accepted : Accepted target pool)
      (nonzero : target.isZero = false)
      (falls : ¬Bytes.Spans target.size pool) (lt : bit < 8 * target.size)
      (none : ¬Bytes.Leads target.size pool bit)
      (before : ∀ i < bit, Bytes.Leads target.size pool i) :
      Finding target pool (.error (.unsolvable bit))

/-- What sweeping a pool from its first position to its last comes to. -/
def swept (target : Bytes) (pool : List Bytes) : Except Fault Sweep :=
  (List.range (8 * target.size)).foldlM advance (initial target pool)

/-- Sweeping an accepted pool gets as far as the last position, or to
one at which no sum begins. -/
theorem reaches_swept (hacc : Accepted target pool) :
    Reaches target pool (8 * target.size) (swept target pool) :=
  reaches_foldlM hacc.sizes (Nat.le_refl _)

/-- A nonzero target is swept for, and the solution is what the sweep
has gathered. -/
theorem scripted_find (hacc : Accepted target pool)
    (hzero : target.isZero = false) :
    Job.Scripted (find target pool) ((swept target pool).map
      (gathered target pool)) := by
  have hinputs :
      Job.Scripted (Job.ofExcept (checkInputs target pool)) (.ok ()) := by
    rw [checkInputs_eq_ok_iff.2 hacc]
    exact Job.scripted_ofExcept _
  have hrun : Job.Scripted (initial target pool).run (swept target pool) :=
    scripted_run _
  have hreaches := reaches_swept hacc
  unfold find
  refine hinputs.bind ((Job.scripted_poll _).bind ?_)
  rw [hzero, if_neg Bool.false_ne_true]
  generalize swept target pool = r at hrun hreaches
  cases hreaches with
  | stuck => exact hrun.bind_error
  | swept sound =>
    rw [Nat.sub_self] at sound
    exact hrun.bind (scripted_ofSweep sound)

/-- Every run of the finder is scripted, and comes to a finding. It is
the one lemma about finding on which the proofs of other passes rest. -/
theorem exists_scripted_find (target : Bytes) (pool : List Bytes) :
    ∃ r, Job.Scripted (find target pool) r ∧ Finding target pool r := by
  have hinputs := Job.scripted_ofExcept (checkInputs target pool)
  cases hcheck : checkInputs target pool with
  | error e =>
    unfold find
    rw [hcheck] at hinputs ⊢
    exact ⟨_, hinputs.bind_error, .refused (refused_of_checkInputs hcheck)⟩
  | ok =>
    have hacc : Accepted target pool := checkInputs_eq_ok_iff.1 hcheck
    cases hzero : target.isZero with
    | true =>
      unfold find
      rw [hcheck] at hinputs ⊢
      refine ⟨_, hinputs.bind ((Job.scripted_poll _).bind ?_), .zero hacc hzero⟩
      rw [hzero]
      exact Job.scripted_pure _
    | false =>
      refine ⟨_, scripted_find hacc hzero, ?_⟩
      have hleads := Bytes.spans_iff_leads hacc.sizes
      have hreaches := reaches_swept hacc
      generalize swept target pool = r at hreaches
      cases hreaches with
      | @swept s sound leads =>
        rw [Nat.sub_self] at sound
        exact .found hacc hzero (hleads.2 leads) (sound_gathered sound)
      | @stuck i lt before none =>
        exact .unsolvable hacc hzero
          (fun h => none (hleads.1 h i lt)) lt none before

/-- What finding a combination comes to if nobody stops it. There are
four cases, and every input belongs to one of them. -/
theorem finding (target : Bytes) (pool : List Bytes) :
    Finding target pool (find target pool).outcome := by
  obtain ⟨r, hscript, hfinding⟩ := exists_scripted_find target pool
  rw [hscript.outcome_eq]
  exact hfinding

/-- A solution that was found is sound. The zero target's is sound
because it has neither values nor records. -/
theorem Finding.sound {s : Solution} (h : Finding target pool (.ok s)) :
    Sound target pool s := by
  cases h with
  | zero accepted zero =>
    refine ⟨rfl, rfl, by simp, by simp, List.nodup_nil, ?_, by simp,
      closed_empty, by simp⟩
    refine Bytes.eq_of_toWord_eq (by simp [Bytes.xorAll]) ?_
    rw [(Bytes.isZero_iff target).1 zero]
    exact Bytes.toWord_zeros _
  | found _ _ _ sound => exact sound

/-- A combination is only found for an input that is accepted. -/
theorem Finding.accepted {s : Solution} (h : Finding target pool (.ok s)) :
    Accepted target pool := by
  cases h with
  | zero accepted => exact accepted
  | found accepted => exact accepted

/-- For the zero target it has no values. -/
theorem Finding.computed_eq_nil {s : Solution} (h : Finding target pool (.ok s))
    (hzero : target.isZero = true) : s.computed = [] := by
  cases h with
  | zero => rfl
  | found _ nonzero =>
    rw [hzero] at nonzero
    cases nonzero

/-- So what is found is sound, whoever asks for it. -/
theorem sound_of_find {s : Solution} (h : (find target pool).outcome = .ok s) :
    Sound target pool s := by
  have hfinding := finding target pool
  rw [h] at hfinding
  exact hfinding.sound

/-- An accepted pool that reaches every value has a solution for every
target. -/
theorem exists_find_eq_ok (hacc : Accepted target pool)
    (hspans : Bytes.Spans target.size pool) :
    ∃ s, (find target pool).outcome = .ok s := by
  have hfinding := finding target pool
  generalize (find target pool).outcome = r at hfinding
  cases hfinding with
  | refused reason => exact absurd hacc reason.not_accepted
  | zero => exact ⟨_, rfl⟩
  | found => exact ⟨_, rfl⟩
  | unsolvable _ _ falls => exact absurd hspans falls

/-- The unit values and one entry more make an accepted pool that
reaches every value. -/
theorem accepted_cons_units {v : Bytes} (hv : v.size = target.size)
    (hne : target.size ≠ 0) :
    Accepted target (v :: Bytes.units target.size) := by
  refine ⟨hne, ?_, ?_⟩
  · intro u hu
    rcases List.mem_cons.1 hu with rfl | hu
    · exact hv
    · exact Bytes.size_of_mem_units hu
  · unfold Bytes.units
    rw [List.length_cons, List.length_map, List.length_range]
    exact Nat.le_succ _

/-- And so it has a combination for its target. -/
theorem exists_find_cons_units {v : Bytes} (hv : v.size = target.size)
    (hne : target.size ≠ 0) :
    ∃ s, (find target (v :: Bytes.units target.size)).outcome = .ok s :=
  exists_find_eq_ok (accepted_cons_units hv hne)
    (Bytes.spans_of_units (accepted_cons_units hv hne).sizes
      fun _ hu => List.mem_cons_of_mem _ hu)

-- ============================================================== records

/-- The records of a solution that was found are closed and well
founded, so that each of its values unfolds, in one way, into nonzero
members of the pool. -/
theorem find_records {s : Solution} (h : (find target pool).outcome = .ok s) :
    Closed pool s.records ∧ (∀ v ∈ s.computed, Accounted pool s.records v) ∧
    WellFounded (Operand s.records) ∧
    ∀ v ∈ s.computed, ∃ leaves, (∀ others, Unfolds pool s.records v others ↔
      others = leaves) ∧
      ∀ u ∈ leaves, u ∈ pool ∧ u.isZero = false := by
  have hsound : Sound target pool s := sound_of_find h
  refine ⟨hsound.closed, hsound.accounted, hsound.closed.wellFounded, ?_⟩
  intro v hv
  obtain ⟨leaves, hleaves, hpool⟩ :=
    hsound.closed.exists_unfolds (hsound.accounted v hv)
  refine ⟨leaves, ?_, hpool⟩
  intro others
  constructor
  · intro hothers
    exact hothers.unique hleaves
  · rintro rfl
    exact hleaves

/-- Over the unit values of one byte and `3`, which is one of its own
sums, so that an entry is also a value that others make. -/
theorem find_records_three :
    ∃ s, (find #[3] (#[3] :: Bytes.units 1)).outcome = .ok s ∧
    Closed (#[3] :: Bytes.units 1) s.records ∧ WellFounded (Operand s.records) ∧
    ∀ v ∈ s.computed, Accounted (#[3] :: Bytes.units 1) s.records v := by
  obtain ⟨s, hs⟩ : ∃ s, (find #[3] (#[3] :: Bytes.units 1)).outcome = .ok s :=
    exists_find_cons_units rfl (by decide)
  obtain ⟨hclosed, haccounted, hwf, -⟩ := find_records hs
  exact ⟨s, hs, hclosed, hwf, haccounted⟩

end Solution

end XorSpan
