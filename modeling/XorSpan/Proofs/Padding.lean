/-
Zero entries in a pool. They take part in every contribution and stay at
work to the end, and still they leave no trace: a pool with zero entries
put in anywhere falls short at the same bit, or has the same combination
with the same records (`find_padded`). What is made of a combination, its
graph, the chart of that and the reduction, does not look at the pool but
for its nonzero members, and so it is the same as well.
-/
import XorSpan.Proofs.Interruption
import XorSpan.Proofs.Sweep.Zeros

namespace XorSpan

open Job

variable {target : Bytes} {pool padded : List Bytes} {n : Nat}

-- ================================================================= pools

/-- The second pool is the first with zero entries of `n` bytes put
in. -/
inductive Padded (n : Nat) : List Bytes → List Bytes → Prop where
  | nil : Padded n [] []
  | keep {pool padded : List Bytes} (v : Bytes) (h : Padded n pool padded) :
      Padded n (v :: pool) (v :: padded)
  | zero {pool padded : List Bytes} {v : Bytes} (hv : v.isZero = true)
      (hsize : v.size = n)
      (h : Padded n pool padded) : Padded n pool (v :: padded)

namespace Padded

/-- No zeros at all are put in, whatever the entries are. -/
theorem refl : ∀ pool : List Bytes, Padded n pool pool
  | [] => .nil
  | v :: pool => .keep v (refl pool)

theorem size_of_mem (h : Padded n pool padded)
    (hpool : ∀ v ∈ pool, v.size = n) :
    ∀ v ∈ padded, v.size = n := by
  induction h with
  | nil => exact hpool
  | keep v _ ih =>
    obtain ⟨hv, hpool⟩ := List.forall_mem_cons.1 hpool
    exact List.forall_mem_cons.2 ⟨hv, ih hpool⟩
  | zero _ hsize _ ih => exact List.forall_mem_cons.2 ⟨hsize, ih hpool⟩

theorem length_le (h : Padded n pool padded) : pool.length ≤ padded.length := by
  induction h with
  | nil => exact Nat.le_refl _
  | keep v _ ih => exact Nat.succ_le_succ ih
  | zero _ _ _ ih => exact Nat.le_succ_of_le ih

/-- The other entries are the same, in the same order. So a pool and
what it is padded to have the same base. -/
theorem filter_eq (h : Padded n pool padded) :
    padded.filter (fun v => !v.isZero) = pool.filter fun v => !v.isZero := by
  induction h with
  | nil => rfl
  | keep v _ ih => rw [List.filter_cons, List.filter_cons, ih]
  | zero hv _ _ ih => rw [List.filter_cons_of_neg (by simp [hv]), ih]

/-- Zero entries of the right length spoil no pool. -/
theorem accepted (h : Padded target.size pool padded)
    (hacc : Solution.Accepted target pool) :
    Solution.Accepted target padded where
  nonempty := hacc.nonempty
  sizes := h.size_of_mem hacc.sizes
  enough := Nat.le_trans hacc.enough h.length_le

theorem initial_withoutZeros (h : Padded target.size pool padded) :
    (Sweep.initial target padded).withoutZeros =
      (Sweep.initial target pool).withoutZeros := by
  have hzero : ((· != 0) : Nat → Bool) ∘ Bytes.toWord = fun v : Bytes =>
      !v.isZero := by
    funext v
    rw [Bool.eq_iff_iff, Function.comp_apply, bne_iff_ne, Bool.not_eq_true',
      ← Bool.not_eq_true, Bytes.isZero_iff]
  have hwords : (padded.map Bytes.toWord).filter (· != 0) =
      (pool.map Bytes.toWord).filter (· != 0) := by
    rw [List.filter_map, List.filter_map, hzero, h.filter_eq]
  unfold Sweep.withoutZeros Sweep.initial
  rw [hwords]

end Padded

-- ============================================================== findings

namespace Solution

variable {s s' : Solution}

/-- The second solution differs from the first in its pool's zero
entries, and in how many entries were added and how many of these were
zero. -/
structure Alike (s s' : Solution) : Prop where
  target : s'.target = s.target
  computed : s'.computed = s.computed
  /-- The same keys in the same order, each with the same record. -/
  records : s'.records = s.records
  base : s'.base = s.base
  counters : s'.stats =
    { s.stats with
      contributions := s'.stats.contributions, zeros := s'.stats.zeros }

/-- Two runs fall short at the same bit, or find solutions that are
alike. -/
inductive SameFinding : Except Fault Solution →
    Except Fault Solution → Prop where
  | unsolvable (bit : Nat) :
      SameFinding (.error (.unsolvable bit)) (.error (.unsolvable bit))
  | found {s s' : Solution} (alike : Alike s s') : SameFinding (.ok s) (.ok s')

/-- The base does not have the zero values, so it does not see them. -/
theorem base_eq_of_filter_eq
    (h : s'.pool.filter (fun v => !v.isZero) =
      s.pool.filter fun v => !v.isZero) :
    s'.base = s.base := by
  unfold base
  rw [h]

theorem Alike.graph_eq (h : Alike s s') : s'.graph = s.graph := by
  unfold graph Expansion.initial
  rw [h.target, h.computed, h.records, h.base]

theorem Alike.reduce_eq (h : Alike s s') (g : Graph) :
    g.reduce s' = g.reduce s := by
  unfold Graph.reduce Reduction.close
  rw [h.target, h.base]

/-- Sweeps that differ in zero entries gather the same. Only the pools
that they note differ, and the counter of zeros. -/
theorem alike_gathered {t t' : Sweep} (hpad : Padded target.size pool padded)
    (h : t'.withoutZeros = t.withoutZeros) :
    Alike (gathered target pool t) (gathered target padded t') := by
  have happended : t'.balance.appended.filter (· != 0) =
      t.balance.appended.filter (· != 0) :=
    congrArg (fun t => t.balance.appended) h
  have hnonzero : t'.balance.appended.reverse.filter (· != 0) =
      t.balance.appended.reverse.filter (· != 0) := by
    rw [List.filter_reverse, List.filter_reverse, happended]
  have hcomputed : (gathered target padded t').computed =
      (gathered target pool t).computed := by
    simp only [gathered, hnonzero]
  have hrecords : t'.records = t.records := congrArg (fun t => t.records) h
  have hrecorded : t'.recorded = t.recorded := congrArg (fun t => t.recorded) h
  have hduplicates : t'.duplicates = t.duplicates :=
    congrArg (fun t => t.duplicates) h
  refine ⟨rfl, hcomputed, hrecords, base_eq_of_filter_eq hpad.filter_eq, ?_⟩
  simp only [gathered, hnonzero, hrecorded, hduplicates]

/-- Zero entries have no say in what a sweep comes to. The projection
commutes with one position, and so with all of them. -/
theorem swept_withoutZeros (hpad : Padded target.size pool padded) :
    (swept target padded).map Sweep.withoutZeros =
      (swept target pool).map Sweep.withoutZeros := by
  unfold swept
  rw [← Sweep.foldlM_withoutZeros, ← Sweep.foldlM_withoutZeros,
    hpad.initial_withoutZeros]

/-- Finding a combination for a target that is not zero comes to
solutions that differ in nothing but their pools, or to the same bit. -/
theorem sameFinding_padded (hacc : Accepted target pool)
    (hzero : target.isZero = false) (hpad : Padded target.size pool padded) :
    SameFinding (find target pool).outcome (find target padded).outcome := by
  rw [(scripted_find hacc hzero).outcome_eq,
    (scripted_find (hpad.accepted hacc) hzero).outcome_eq]
  have hsame := swept_withoutZeros hpad
  have hreaches := reaches_swept hacc
  generalize swept target padded = r' at hsame
  generalize swept target pool = r at hsame hreaches
  cases hreaches with
  | stuck =>
    cases r' with
    | error e =>
      cases hsame
      exact .unsolvable _
    | ok t' => cases hsame
  | swept =>
    cases r' with
    | error e => cases hsame
    | ok t' => exact .found (alike_gathered hpad (Except.ok.inj hsame))

-- ====================================================== what comes after

/-- A job that treats alike what is alike comes to the same after both
runs. Expanding, drawing and reducing are such jobs. -/
theorem outcome_bind_padded {α : Type} {f : Solution → Job α}
    (hacc : Accepted target pool)
    (hzero : target.isZero = false) (hpad : Padded target.size pool padded)
    (hf : ∀ s s', Alike s s' → f s' = f s)
    (hscript : ∀ s, ∃ r, Scripted (f s) r) :
    (find target padded >>= f).outcome = (find target pool >>= f).outcome := by
  obtain ⟨r, hr, -⟩ := exists_scripted_find target pool
  obtain ⟨r', hr', -⟩ := exists_scripted_find target padded
  have hsame := sameFinding_padded hacc hzero hpad
  rw [hr.outcome_eq, hr'.outcome_eq] at hsame
  rw [hr.outcome_bind hscript, hr'.outcome_bind hscript]
  cases hsame with
  | unsolvable => rfl
  | found alike => exact congrArg outcome (hf _ _ alike)

/-- And it writes the same lines. Finding itself writes none. -/
theorem lines_bind_padded {α : Type} {f : Solution → Job α}
    (hacc : Accepted target pool)
    (hzero : target.isZero = false) (hpad : Padded target.size pool padded)
    (hf : ∀ s s', Alike s s' → f s' = f s)
    (hscript : ∀ s, ∃ r, Scripted (f s) r) :
    linesUnder (find target padded >>= f) .never =
      linesUnder (find target pool >>= f) .never := by
  obtain ⟨r, hr, -⟩ := exists_scripted_find target pool
  obtain ⟨r', hr', -⟩ := exists_scripted_find target padded
  have hsame := sameFinding_padded hacc hzero hpad
  rw [hr.outcome_eq, hr'.outcome_eq] at hsame
  rw [hr.lines_bind (quiet_find target pool) hscript,
    hr'.lines_bind (quiet_find target padded) hscript]
  cases hsame with
  | unsolvable => rfl
  | found alike => exact congrArg (linesUnder · .never) (hf _ _ alike)

/-- For a nonzero target, zero entries put into a pool that is
accepted change nothing: not the bit at which it falls short, not the
combination and its records, not the graph, not the chart, not the
reduction. -/
theorem find_padded (hacc : Accepted target pool)
    (hzero : target.isZero = false) (hpad : Padded target.size pool padded) :
    SameFinding (find target pool).outcome (find target padded).outcome ∧
    (find target padded >>= graph).outcome =
      (find target pool >>= graph).outcome ∧
    (∀ footer, (drawChart target padded footer).outcome =
      (drawChart target pool footer).outcome ∧
      linesUnder (drawChart target padded footer) .never =
        linesUnder (drawChart target pool footer) .never) ∧
    (find target padded >>= fun s => s.graph >>= fun g => g.reduce s).outcome =
      (find target pool >>= fun s => s.graph >>=
        fun g => g.reduce s).outcome := by
  have hgraph : ∀ s : Solution, ∃ r, Scripted s.graph r := by
    intro s
    obtain ⟨r, hr, -⟩ := s.scripted_graph
    exact ⟨r, hr⟩
  have hchart : ∀ footer (s : Solution), ∃ r,
      Scripted (s.graph >>= fun g => g.chart footer) r := by
    intro footer s
    refine exists_scripted_bind (hgraph s) ?_
    intro g
    obtain ⟨drawing, last, summary, hplay, -, -⟩ := g.exists_chartScript footer
    exact ⟨_, chartScript drawing last, hplay⟩
  refine ⟨sameFinding_padded hacc hzero hpad, ?_, ?_, ?_⟩
  · exact outcome_bind_padded hacc hzero hpad (fun s s' h => h.graph_eq) hgraph
  · intro footer
    have hsame : ∀ s s', Alike s s' → (s'.graph >>= fun g => g.chart footer) =
        s.graph >>= fun g => g.chart footer := by
      intro s s' h
      rw [h.graph_eq]
    exact ⟨outcome_bind_padded hacc hzero hpad hsame (hchart footer),
      lines_bind_padded hacc hzero hpad hsame (hchart footer)⟩
  · refine outcome_bind_padded hacc hzero hpad ?_ ?_
    · intro s s' h
      rw [h.graph_eq]
      exact congrArg (s.graph >>= ·) (funext h.reduce_eq)
    · intro s
      exact exists_scripted_bind (hgraph s) fun g => g.exists_scripted_reduce s

/-- A zero entry in front of `3` and another behind it. -/
theorem find_padded_three : ∃ s s',
    (find #[3] (#[3] :: Bytes.units 1)).outcome = .ok s ∧
      (find #[3] (#[0] :: #[3] :: #[0] :: Bytes.units 1)).outcome = .ok s' ∧
      s'.computed = s.computed ∧ s'.records = s.records ∧
      s'.graph = s.graph := by
  have hacc : Accepted #[3] (#[3] :: Bytes.units 1) :=
    accepted_cons_units rfl (by decide)
  have hpad : Padded 1 (#[3] :: Bytes.units 1)
      (#[0] :: #[3] :: #[0] :: Bytes.units 1) :=
    .zero (by decide +kernel) rfl
      (.keep _ (.zero (by decide +kernel) rfl (.refl _)))
  obtain ⟨s, hs⟩ : ∃ s, (find #[3] (#[3] :: Bytes.units 1)).outcome = .ok s :=
    exists_find_cons_units rfl (by decide)
  obtain ⟨hsame, -⟩ := find_padded hacc (by decide +kernel) hpad
  rw [hs] at hsame
  generalize
    (find #[3] (#[0] :: #[3] :: #[0] :: Bytes.units 1)).outcome = r at hsame ⊢
  cases hsame with
  | @found _ s' alike =>
    exact ⟨s, s', hs, rfl, alike.computed, alike.records, alike.graph_eq⟩

end Solution

end XorSpan
