/-
Answers from end to end: sweep, graph, reduction, and the receipts on the
way.

A solution that was found is consistent, and its records are closed, so
that its graph can be drawn (`Sound.exists_graph`) and has no cycle. So it
is reduced (`Sound.exists_reduction`), and none of the checks on the way
finds a defect.

What can still go wrong is a receipt. The frames of the pool and of the
reduced values fit if the pool's does; but the values computed by a sweep
can be more than the entries of the pool, up to one for each bit and
entry, and if they are more than a frame can count, the receipt of the
sweep refuses them (`solve_outcome`). There are such pools
(`Proofs/Crowds`).
-/
import XorSpan.Answer
import XorSpan.Proofs.Find
import XorSpan.Proofs.Graph.Reduction
import XorSpan.Proofs.HexOrder
import XorSpan.Proofs.Receipts

namespace XorSpan

open Records

namespace Solution

variable {target : Bytes} {pool : List Bytes} {s : Solution} {g : Graph}

-- ========================================================== its own graph

/-- A sound solution is consistent: that its records are what they say
is part of what the sweep keeps. -/
theorem Sound.consistent (h : Sound target pool s) : Consistent s where
  sizes := by
    rw [h.target_eq]
    exact h.sizes
  sum := by
    rw [h.target_eq]
    exact h.sum
  records key r hr := (h.closed key r hr).make

/-- The graph of what was found can be drawn, -/
theorem Sound.exists_graph (h : Sound target pool s) :
    ∃ g, Job.Scripted s.graph (.ok g) ∧ IsGraphOf s g :=
  exists_graph_of_closed (by rw [h.pool_eq]; exact h.closed)
    (by rw [h.pool_eq]; exact h.accounted)

/-- and reduced: first bits move to the left on the way down, so it
has no cycle. -/
theorem Sound.exists_reduction (h : Sound target pool s) (hg : IsGraphOf s g) :
    ∃ r, Job.Scripted (g.reduce s) (.ok r) ∧ IsReductionOf s g r.values := by
  obtain ⟨r, hscript, hreduced⟩ := scripted_reduce hg h.consistent
  cases hreduced with
  | exact _ _ values => exact ⟨_, hscript, values⟩
  | cyclic below => exact absurd ⟨_, below⟩ (hg.acyclic h.closed)

end Solution

-- ================================================================ answers

/-- Nonzero pool members in strict bytewise order that add up to the
target. -/
structure IsAnswer (target : Bytes) (pool values : List Bytes) : Prop where
  member : ∀ v ∈ values, v ∈ pool ∧ v.isZero = false
  increasing : values.Pairwise fun a b => a.toList < b.toList
  sum : Bytes.xorAll target.size values = target

variable {target : Bytes} {pool values : List Bytes} {s : Solution} {g : Graph}

/-- A reduction has only nonzero pool members, sorted and each once,
and they add up to the target. -/
theorem Solution.IsReductionOf.isAnswer (hs : Solution.Sound target pool s)
    (h : s.IsReductionOf g values) : IsAnswer target pool values where
  member := by
    rw [← hs.pool_eq]
    exact h.pool
  increasing := by
    refine (h.sorted.and h.nodup).imp ?_
    intro a b hab
    exact Bytes.toList_lt_of_toHex_le hab.1 hab.2
  sum := by
    rw [← hs.target_eq]
    exact h.sum

/-- Where nothing was computed, there is nothing to reduce. The root
is alone then, and it is not a leaf. -/
theorem Solution.IsReductionOf.eq_nil (hg : s.IsGraphOf g)
    (h : s.IsReductionOf g values)
    (hnil : s.computed = []) : values = [] := by
  have hroot : g.childrenAt 0 = #[] := by
    rw [Graph.childrenAt_eq_empty_iff, hg.computed]
    exact hnil
  rw [List.eq_nil_iff_forall_not_mem]
  intro v hv
  obtain ⟨i, ⟨hpos, hi, -⟩, -, -⟩ := (h.mem v).1 hv
  rcases Relation.ReflTransGen.cases_head (hg.reached i hi) with
    rfl | ⟨c, hc, -⟩
  · exact absurd hpos (Nat.lt_irrefl 0)
  · have hmem : c ∈ g.childrenAt 0 := hc
    rw [hroot] at hmem
    exact absurd hmem (Array.not_mem_empty c)

/-- What solving comes to, given what finding has come to. -/
inductive Solving (target : Bytes) (pool : List Bytes) :
    Except Fault Solution → Except Fault (List Bytes) → Prop where
  | unsolvable (bit : Nat) :
      Solving target pool (.error (.unsolvable bit)) (.error (.unsolvable bit))
  | answered {s : Solution} {values : List Bytes}
      (fits : s.computed.length ≤ 0xffffffff)
      (answer : IsAnswer target pool values) :
      Solving target pool (.ok s) (.ok values)
  /-- More values were computed than a frame can count. -/
  | unframed {s : Solution} (many : 0xffffffff < s.computed.length)
      (le : s.computed.length ≤ 8 * target.size * pool.length) :
      Solving target pool (.ok s)
        (.error (.receipt (.frame (.tooMany s.computed.length))))

/-- What an answer of a level has for values, given the solution. -/
inductive ValuesOf (target : Bytes) (pool : List Bytes) (s : Solution) :
    Level → List Bytes → Prop
  | computed : ValuesOf target pool s .computed s.computed
  | base {values : List Bytes} (answer : IsAnswer target pool values)
      (empty : s.computed = [] → values = []) :
      ValuesOf target pool s .base values

theorem ValuesOf.eq_nil {level : Level}
    (h : ValuesOf target pool s level values)
    (hnil : s.computed = []) : values = [] := by
  cases h with
  | computed => exact hnil
  | base _ empty => exact empty hnil

theorem IsAnswer.nodup (h : IsAnswer target pool values) : values.Nodup := by
  refine h.increasing.imp ?_
  rintro a b hlt rfl
  exact absurd hlt (List.lt_irrefl a.toList)

/-- There are no more of them than the sweep has room for. Each
position adds an entry once at most. -/
theorem ValuesOf.length_le {level : Level}
    (h : ValuesOf target pool s level values)
    (hs : Solution.Sound target pool s) (hne : target.size ≠ 0) :
    values.length ≤ 8 * target.size * pool.length := by
  cases h with
  | computed => exact hs.length_le
  | base answer =>
    have hsubset : values ⊆ pool := fun v hv => (answer.member v hv).1
    have hpool : pool.length ≤ 8 * target.size * pool.length :=
      Nat.le_mul_of_pos_left _ (by omega)
    exact Nat.le_trans (answer.nodup.length_le_of_subset hsubset) hpool

/-- The values of either level are as long as the target and add up to
it. So values that were printed pass when they are compared with the
target. -/
theorem ValuesOf.addsUp {level : Level}
    (h : ValuesOf target pool s level values)
    (hs : Solution.Sound target pool s)
    (hpool : ∀ v ∈ pool, v.size = target.size) :
    (∀ v ∈ values, v.size = target.size) ∧
    Bytes.xorAll target.size values = target := by
  cases h with
  | computed => exact ⟨hs.sizes, hs.sum⟩
  | base answer =>
    exact ⟨fun v hv => hpool v (answer.member v hv).1, answer.sum⟩

/-- Once the sweep has its receipt, nothing keeps an answer of either
level from being found. -/
theorem exists_scripted_answer {solved : Receipt}
    (hs : Solution.Sound target pool s)
    (hpool : ∀ v ∈ pool, v.size = target.size) (hwidth : target.size ≤ 0xffff)
    (hcount : pool.length ≤ 0xffffffff)
    (hfind : Job.Scripted (Solution.find target pool) (.ok s))
    (hsolved : Receipt.write "solve" (Answer.solveReceipt s) = .ok solved)
    (level : Level) :
    ∃ a, Job.Scripted (Answer.find level target pool) (.ok a) ∧
      ValuesOf target pool s level a.values := by
  unfold Answer.find
  cases level with
  | computed =>
    exact ⟨_, hfind.bind ((Job.scripted_receipt hsolved).bind
      (Job.scripted_pure _)), .computed⟩
  | base =>
    obtain ⟨g, hgraph, hg⟩ := hs.exists_graph
    obtain ⟨drawn, hdrawn⟩ :=
      (Answer.writes_stats g.stats.json :
        Receipt.Writes (Answer.graphReceipt g) _).write
        "provenance"
    obtain ⟨r, hreduce, hr⟩ := hs.exists_reduction hg
    have hanswer : IsAnswer target pool r.values := hr.isAnswer hs
    have hshort : r.values.length ≤ 0xffffffff := by
      refine Nat.le_trans ?_ hcount
      exact List.Nodup.length_le_of_subset hr.nodup fun v hv =>
        (hanswer.member v hv).1
    have hvalues : Frame.encode r.values =
        .ok (Frame.bytes (Frame.width r.values) r.values) := by
      rw [Frame.encode_eq (fun v hv => hpool v (hanswer.member v hv).1) hwidth,
        if_neg (Nat.not_lt.2 hshort)]
    obtain ⟨reduced, hreduced⟩ :=
      (Answer.writes_reductionReceipt hvalues).write "reduce"
    let answer : Answer :=
      ⟨r.values, [solved.digest, drawn.digest, reduced.digest], none⟩
    exact ⟨answer, hfind.bind ((Job.scripted_receipt hsolved).bind (hgraph.bind
      ((Job.scripted_receipt hdrawn).bind (hreduce.bind
        ((Job.scripted_receipt hreduced).bind
          (Job.scripted_pure answer)))))), .base hanswer (hr.eq_nil hg)⟩

/-- From a solution on, everything is as it should be but for the
frame of its values. -/
theorem exists_scripted_solve (hs : Solution.Sound target pool s)
    (hpool : ∀ v ∈ pool, v.size = target.size) (hwidth : target.size ≤ 0xffff)
    (hcount : pool.length ≤ 0xffffffff)
    (hfind : Job.Scripted (Solution.find target pool) (.ok s)) :
    ∃ r, Job.Scripted (solve .base target pool) r ∧
    Solving target pool (.ok s) r := by
  have hpoolframe : Frame.encode s.pool =
      .ok (Frame.bytes (Frame.width s.pool) s.pool) := by
    rw [hs.pool_eq, Frame.encode_eq hpool hwidth, if_neg (Nat.not_lt.2 hcount)]
  have hcomputed := Frame.encode_eq hs.sizes hwidth
  by_cases hmany : s.computed.length > 0xffffffff
  · rw [if_pos hmany] at hcomputed
    have hreceipt := Job.scripted_receipt_error
      ((Answer.refuses_solveReceipt hpoolframe hcomputed).write "solve")
    unfold solve Answer.find
    refine ⟨_, (hfind.bind hreceipt.bind_error).bind_error,
      .unframed hmany hs.length_le⟩
  · rw [if_neg hmany] at hcomputed
    obtain ⟨solved, hsolved⟩ :=
      (Answer.writes_solveReceipt hpoolframe hcomputed).write "solve"
    obtain ⟨a, hrun, hvalues⟩ :=
      exists_scripted_answer hs hpool hwidth hcount hfind hsolved .base
    unfold solve
    refine ⟨_, hrun.bind (Job.scripted_pure _), ?_⟩
    cases hvalues with
    | base answer => exact .answered (Nat.not_lt.1 hmany) answer

/-- So solving is unsolvable at a bit exactly if finding is. -/
theorem Solving.unsolvable_iff {r : Except Fault Solution}
    {q : Except Fault (List Bytes)}
    (h : Solving target pool r q) (bit : Nat) :
    q = .error (.unsolvable bit) ↔ r = .error (.unsolvable bit) := by
  cases h with
  | unsolvable bit' =>
    constructor
    · intro h
      cases h
      rfl
    · intro h
      cases h
      rfl
  | answered => exact iff_of_false (fun h => nomatch h) (fun h => nomatch h)
  | unframed => exact iff_of_false (fun h => nomatch h) (fun h => nomatch h)

/-- And it does not end in a defect: none of the checks on the way fails
over what the passes before have made. -/
theorem Solving.ne_defect {r : Except Fault Solution}
    {q : Except Fault (List Bytes)} (h : Solving target pool r q)
    (stage : Stage) (what : Defect) : q ≠ .error (.defect stage what) := by
  cases h <;> exact fun hdefect => nomatch hdefect

/-- What an accepted input of a width that has frames comes to, over a
pool that has one: finding decides, and then the number of values
computed. -/
theorem solving (hacc : Solution.Accepted target pool)
    (hwidth : target.size ≤ 0xffff) (hcount : pool.length ≤ 0xffffffff) :
    Solving target pool (Solution.find target pool).outcome
      (solve .base target pool).outcome := by
  obtain ⟨r, hfind, hfinding⟩ := Solution.exists_scripted_find target pool
  have hsolving :
      ∃ q, Job.Scripted (solve .base target pool) q ∧
      Solving target pool r q := by
    cases r with
    | ok s =>
      exact exists_scripted_solve hfinding.sound hacc.sizes hwidth hcount hfind
    | error e =>
      cases hfinding with
      | refused reason => exact absurd hacc reason.not_accepted
      | unsolvable =>
        unfold solve Answer.find
        exact ⟨_, hfind.bind_error.bind_error, .unsolvable _⟩
  obtain ⟨q, hsolve, hsolving⟩ := hsolving
  rw [hfind.outcome_eq, hsolve.outcome_eq]
  exact hsolving

/-- Solving an accepted input of a width that has frames, over a pool
that has one: unsolvable exactly if finding is, else an answer, as
long as the values computed on the way can be counted; and never a
defect. -/
theorem solve_outcome (hacc : Solution.Accepted target pool)
    (hwidth : target.size ≤ 0xffff) (hcount : pool.length ≤ 0xffffffff) :
    (∀ bit, (solve .base target pool).outcome = .error (.unsolvable bit) ↔
      (Solution.find target pool).outcome = .error (.unsolvable bit)) ∧
    Solving target pool (Solution.find target pool).outcome
      (solve .base target pool).outcome ∧
    ∀ stage what, (solve .base target pool).outcome ≠
      .error (.defect stage what) := by
  have hsolving := solving hacc hwidth hcount
  exact ⟨hsolving.unsolvable_iff, hsolving, hsolving.ne_defect⟩

/-- The smallest case: one byte, the eight unit values and one more. -/
theorem solve_outcome_three : ∃ values,
    (solve .base #[3] (#[3] :: Bytes.units 1)).outcome = .ok values ∧
      IsAnswer #[3] (#[3] :: Bytes.units 1) values := by
  have hacc : Solution.Accepted #[3] (#[3] :: Bytes.units 1) :=
    Solution.accepted_cons_units rfl (by decide)
  have hlength : (#[3] :: Bytes.units 1).length = 9 := by
    unfold Bytes.units
    simp
  obtain ⟨s, hs⟩ :
      ∃ s, (Solution.find #[3] (#[3] :: Bytes.units 1)).outcome = .ok s :=
    Solution.exists_find_cons_units rfl (by decide)
  obtain ⟨-, hsolving, -⟩ :=
    solve_outcome hacc (by decide) (by rw [hlength]; decide)
  generalize (solve .base #[3] (#[3] :: Bytes.units 1)).outcome = q at hsolving
  rw [hs] at hsolving
  cases hsolving with
  | answered _ answer => exact ⟨_, rfl, answer⟩
  | unframed many le =>
    rw [hlength] at le
    exact absurd (Nat.lt_of_lt_of_le many le) (by decide)

end XorSpan
