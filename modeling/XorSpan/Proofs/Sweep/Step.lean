/-
One position of a sweep, without its polls. `Sweep.advance` says what a
position comes to: a fault if no entry has the bit, else the sweep with
the bit cleared (`Sweep.cleared`). `scripted_step` is the equation with
the pass that runs; from there on only `advance` is spoken of.

The contribution pass is a fold whose residual changes under it. What
matters of it: the total and the residual keep their sum, and one entry
with the bit set is enough to leave the residual without the bit,
wherever in the list it stands (`testBit_residual_contributeAll`).

The elimination pass stops for nothing: the records it writes are records
by construction (`make_recordOf`). So it has a closed form, in which the
order of the entries matters to the records alone.
-/
import XorSpan.Sweep
import XorSpan.Proofs.Jobs
import XorSpan.Proofs.Span

namespace XorSpan.Sweep

variable {bit pivot : Nat}

-- ======================================================== contribution

/-- The contribution pass over a list of entries. -/
def contributeAll (bit : Nat) (b : Balance) (entries : List Nat) : Balance :=
  entries.foldl (contribute bit) b

theorem contributeAll_cons (b : Balance) (w : Nat) (entries : List Nat) :
    contributeAll bit b (w :: entries) =
      contributeAll bit (contribute bit b w) entries := rfl

/-- Whatever is added to the total is taken from the residual. So the
two together are the target throughout. -/
theorem total_xor_residual_contribute (b : Balance) (w : Nat) :
    (contribute bit b w).total ^^^ (contribute bit b w).residual =
      b.total ^^^ b.residual := by
  unfold contribute
  split
  · show (b.total ^^^ w) ^^^ (b.residual ^^^ w) = _
    rw [Nat.xor_comm b.residual w, Nat.xor_assoc, xor_cancel_left]
  · rfl

theorem total_xor_residual_contributeAll (b : Balance) (entries : List Nat) :
    (contributeAll bit b entries).total ^^^
      (contributeAll bit b entries).residual =
      b.total ^^^ b.residual := by
  induction entries generalizing b with
  | nil => rfl
  | cons w entries ih =>
    rw [contributeAll_cons, ih, total_xor_residual_contribute]

/-- The total is the sum of what has been added. It is kept by each
entry, added or not. -/
theorem xorSum_appended_contributeAll {b : Balance}
    (h : xorSum b.appended = b.total) (entries : List Nat) :
    xorSum (contributeAll bit b entries).appended =
      (contributeAll bit b entries).total := by
  induction entries generalizing b with
  | nil => exact h
  | cons w entries ih =>
    rw [contributeAll_cons]
    apply ih
    unfold contribute
    split
    · rw [xorSum_cons, h, Nat.xor_comm]
    · exact h

/-- Only entries of the list are added. So what is known of the
entries at work is known of what was added. -/
theorem mem_appended_contributeAll {b : Balance} {entries : List Nat} {a : Nat}
    (h : a ∈ (contributeAll bit b entries).appended) :
    a ∈ b.appended ∨ a ∈ entries := by
  induction entries generalizing b with
  | nil => exact .inl h
  | cons w entries ih =>
    rw [contributeAll_cons] at h
    rcases ih h with ha | ha
    · unfold contribute at ha
      split at ha
      · rcases List.mem_cons.1 ha with rfl | ha
        · exact .inr (List.mem_cons_self ..)
        · exact .inl ha
      · exact .inl ha
    · exact .inr (List.mem_cons_of_mem _ ha)

/-- Each entry is added once at most. Over all positions that bounds
how many values can be computed. -/
theorem length_appended_contributeAll_le (b : Balance) (entries : List Nat) :
    (contributeAll bit b entries).appended.length ≤ b.appended.length +
      entries.length := by
  induction entries generalizing b with
  | nil => exact Nat.le_refl _
  | cons w entries ih =>
    have hstep : (contribute bit b w).appended.length ≤
        b.appended.length + 1 := by
      unfold contribute
      split
      · exact Nat.le_refl _
      · exact Nat.le_succ _
    have hrest := ih (contribute bit b w)
    rw [contributeAll_cons, List.length_cons]
    omega

theorem residual_contributeAll_lt {k : Nat} {b : Balance} {entries : List Nat}
    (hb : b.residual < 2 ^ k) (h : ∀ w ∈ entries, w < 2 ^ k) :
    (contributeAll bit b entries).residual < 2 ^ k := by
  induction entries generalizing b with
  | nil => exact hb
  | cons w entries ih =>
    obtain ⟨hw, hentries⟩ := List.forall_mem_cons.1 h
    rw [contributeAll_cons]
    refine ih ?_ hentries
    unfold contribute
    split
    · exact Nat.xor_lt_two_pow hb hw
    · exact hb

/-- A residual without the bit stays without it: only entries without
it are added. -/
theorem testBit_residual_contribute_of_clear {b : Balance} (w : Nat)
    (hb : b.residual.testBit bit = false) :
    (contribute bit b w).residual.testBit bit = false := by
  unfold contribute
  split
  · next h =>
    show (b.residual ^^^ w).testBit bit = false
    rw [Nat.testBit_xor, h, hb]
    rfl
  · exact hb

/-- An entry with the bit leaves the residual without it: either the
residual had it, and then the entry is added, or it did not. -/
theorem testBit_residual_contribute_of_set (b : Balance) {w : Nat}
    (hw : w.testBit bit = true) :
    (contribute bit b w).residual.testBit bit = false := by
  unfold contribute
  split
  · next h =>
    show (b.residual ^^^ w).testBit bit = false
    rw [Nat.testBit_xor, ← h, hw]
    rfl
  · next h =>
    rw [hw] at h
    simpa using Ne.symm h

theorem testBit_residual_contributeAll_of_clear {b : Balance}
    (entries : List Nat) (hb : b.residual.testBit bit = false) :
    (contributeAll bit b entries).residual.testBit bit = false := by
  induction entries generalizing b with
  | nil => exact hb
  | cons w entries ih => exact ih (testBit_residual_contribute_of_clear w hb)

/-- After a pass that meets an entry with the bit, the residual is
without it. -/
theorem testBit_residual_contributeAll (b : Balance)
    {entries : List Nat} {w : Nat}
    (hw : w ∈ entries) (hbit : w.testBit bit = true) :
    (contributeAll bit b entries).residual.testBit bit = false := by
  induction entries generalizing b with
  | nil => cases hw
  | cons v entries ih =>
    rw [contributeAll_cons]
    rcases List.mem_cons.1 hw with rfl | hw
    · exact testBit_residual_contributeAll_of_clear
        _ (testBit_residual_contribute_of_set b hbit)
    · exact ih _ hw

-- ========================================================= elimination

/-- The record that elimination writes for an entry. -/
def recordOf (width pivot entry : Nat) : Record :=
  ⟨Bytes.ofWord width entry, Bytes.ofWord width pivot,
    Bytes.ofWord width (entry ^^^ pivot)⟩

/-- It is one: its operands are equally long and add up to its result.
So no record is refused in elimination. -/
theorem make_recordOf (width pivot entry : Nat) :
    Record.make (Bytes.ofWord width entry) (Bytes.ofWord width pivot)
      (Bytes.ofWord width (entry ^^^ pivot)) =
        .ok (recordOf width pivot entry) := by
  simp [Record.make, Bytes.ofWord_xor, recordOf]

/-- The entries that elimination replaces. -/
def replaced (bit pivot : Nat) (entries : List Nat) : List Nat :=
  entries.filter fun w => w.testBit bit && w != pivot

theorem mem_replaced {entries : List Nat} {w : Nat} :
    w ∈ replaced bit pivot entries ↔
    w ∈ entries ∧ w.testBit bit = true ∧ w ≠ pivot := by
  simp [replaced]

/-- Writes the records of replaced entries, one after the other. -/
def writeAll (width pivot : Nat) (records : Table Bytes Record)
    (entries : List Nat) :
    Table Bytes Record :=
  entries.foldl (fun t w => t.insert (Bytes.ofWord width (w ^^^ pivot))
    (recordOf width pivot w))
    records

/-- The pass behind the pivot: what it keeps and writes of the
entries, and how many copies of the pivot it drops. -/
theorem foldlM_eliminate_met {width : Nat} (hpivot : pivot.testBit bit = true)
    (entries kept : List Nat) (records : Table Bytes Record)
    (recorded duplicates : Nat) :
    entries.foldlM (eliminate width bit pivot (Bytes.ofWord width pivot))
        ⟨true, kept, records, recorded, duplicates⟩ = .ok
      { pivotMet := true
        kept := (entries.filterMap (sift bit pivot)).reverse ++ kept
        records := writeAll width pivot records (replaced bit pivot entries)
        recorded := recorded + (replaced bit pivot entries).length
        duplicates := duplicates + entries.count pivot } := by
  induction entries generalizing kept records recorded duplicates with
  | nil => rfl
  | cons w entries ih =>
    cases hbit : w.testBit bit with
    | false =>
      have hne : w ≠ pivot := by
        rintro rfl
        rw [hpivot] at hbit
        cases hbit
      have hstep : eliminate width bit pivot (Bytes.ofWord width pivot)
          ⟨true, kept, records, recorded, duplicates⟩ w =
            .ok ⟨true, w :: kept, records, recorded, duplicates⟩ := by
              simp [eliminate, hbit]
      rw [Job.foldlM_cons_ok hstep, ih]
      simp [sift, replaced, hbit, List.count_cons_of_ne hne]
    | true =>
      by_cases hne : w = pivot
      · subst hne
        have hstep : eliminate width bit w (Bytes.ofWord width w)
            ⟨true, kept, records, recorded, duplicates⟩ w =
              .ok ⟨true, kept, records, recorded, duplicates + 1⟩ := by
                simp [eliminate, hbit]
        rw [Job.foldlM_cons_ok hstep, ih]
        simp [sift, replaced, hbit, Nat.add_assoc, Nat.add_comm 1]
      · have hstep : eliminate width bit pivot (Bytes.ofWord width pivot)
            ⟨true, kept, records, recorded, duplicates⟩ w =
              .ok ⟨true, (w ^^^ pivot) :: kept,
                records.insert (Bytes.ofWord width (w ^^^ pivot))
                (recordOf width pivot w), recorded + 1, duplicates⟩ := by
          simp only [eliminate, hbit, hne, Bool.not_true,
            Bool.false_eq_true, if_false, make_recordOf]
          rfl
        rw [Job.foldlM_cons_ok hstep, ih]
        simp [sift, replaced, writeAll, hbit, hne,
          List.count_cons_of_ne hne, Nat.add_assoc, Nat.add_comm 1]

/-- The pass before the pivot keeps all entries. They are kept in
reverse, as the pass puts each in front. -/
theorem foldlM_eliminate_clear {width : Nat} {entries : List Nat}
    (hclear : ∀ w ∈ entries, w.testBit bit = false) (e : Elimination) :
    entries.foldlM (eliminate width bit pivot (Bytes.ofWord width pivot)) e =
      .ok { e with kept := entries.reverse ++ e.kept } := by
  induction entries generalizing e with
  | nil => rfl
  | cons w entries ih =>
    obtain ⟨hw, hentries⟩ := List.forall_mem_cons.1 hclear
    have hstep : eliminate width bit pivot (Bytes.ofWord width pivot) e w =
        .ok { e with kept := w :: e.kept } := by simp [eliminate, hw]
    rw [Job.foldlM_cons_ok hstep, ih hentries]
    simp

/-- The whole pass, from the pivot that stands first among the entries
with the bit. -/
theorem foldlM_eliminate {width : Nat} {entries : List Nat}
    (hfind : entries.find? (·.testBit bit) = some pivot)
    (records : Table Bytes Record) (recorded duplicates : Nat) :
    entries.foldlM (eliminate width bit pivot (Bytes.ofWord width pivot))
        ⟨false, [], records, recorded, duplicates⟩ = .ok
      { pivotMet := true
        kept := (entries.filterMap (sift bit pivot)).reverse
        records := writeAll width pivot records (replaced bit pivot entries)
        recorded := recorded + (replaced bit pivot entries).length
        duplicates := duplicates + (entries.count pivot - 1) } := by
  obtain ⟨hpivot, before, after, rfl, hbefore⟩ :=
    List.find?_eq_some_iff_append.1 hfind
  have hclear : ∀ w ∈ before, w.testBit bit = false := fun w hw => by
    simpa using hbefore w hw
  -- nothing before the pivot is touched
  have hsift : before.filterMap (sift bit pivot) = before := by
    rw [List.filterMap_congr fun w hw =>
      (by simp [sift, hclear w hw] : sift bit pivot w = some w)]
    exact List.filterMap_some
  have hreplaced : replaced bit pivot before = [] := by
    rw [replaced, List.filter_eq_nil_iff]
    intro w hw
    simp [hclear w hw]
  have hcount : before.count pivot = 0 := by
    rw [List.count_eq_zero]
    intro hw
    rw [hclear pivot hw] at hpivot
    cases hpivot
  have hmeet : eliminate width bit pivot (Bytes.ofWord width pivot)
      ⟨false, before.reverse, records, recorded, duplicates⟩ pivot =
        .ok ⟨true, before.reverse, records, recorded, duplicates⟩ := by
    simp [eliminate, hpivot]
  rw [List.foldlM_append, foldlM_eliminate_clear hclear, List.append_nil]
  show (pivot :: after).foldlM
      (eliminate width bit pivot (Bytes.ofWord width pivot))
    ⟨false, before.reverse, records, recorded, duplicates⟩ = _
  rw [Job.foldlM_cons_ok hmeet, foldlM_eliminate_met hpivot]
  have hskip : replaced bit pivot (before ++ pivot :: after) =
      replaced bit pivot after := by
    rw [replaced, List.filter_append, ← replaced, hreplaced]
    simp [replaced]
  have hkept : (before ++ pivot :: after).filterMap (sift bit pivot) =
      before ++ after.filterMap (sift bit pivot) := by
    rw [List.filterMap_append, hsift]
    simp [sift, hpivot]
  rw [hskip, hkept, List.count_append, hcount]
  simp

-- ============================================================ the step

/-- The sweep after the passes for a bit, with the pivot that was
found. -/
def cleared (s : Sweep) (bit pivot : Nat) : Sweep where
  width := s.width
  working := s.working.filterMap (sift bit pivot)
  balance := contributeAll bit s.balance s.working
  records := writeAll s.width pivot s.records (replaced bit pivot s.working)
  recorded := s.recorded + (replaced bit pivot s.working).length
  duplicates := s.duplicates + (s.working.count pivot - 1)

/-- What a position comes to. -/
def advance (s : Sweep) (position : Nat) : Except Fault Sweep :=
  match s.working.find? (·.testBit (s.bitOf position)) with
  | none => .error (.unsolvable position)
  | some pivot => .ok (s.cleared (s.bitOf position) pivot)

theorem scripted_step (s : Sweep) (position : Nat) :
    Job.Scripted (s.step position) (s.advance position) := by
  unfold step
  refine (Job.scripted_poll _).bind ((Job.scripted_visit_ok ..).bind ?_)
  cases hfind : s.working.find? (·.testBit (s.bitOf position)) with
  | none =>
    rw [advance, hfind]
    exact Job.scripted_throw _
  | some pivot =>
    rw [advance, hfind]
    have hvisit := Job.scripted_visit Stage.elimination
      (eliminate s.width (s.bitOf position) pivot (Bytes.ofWord s.width pivot))
      ⟨false, [], s.records, s.recorded, s.duplicates⟩ s.working
    rw [foldlM_eliminate hfind] at hvisit
    refine hvisit.bind ?_
    rw [List.reverse_reverse]
    exact Job.scripted_pure (s.cleared (s.bitOf position) pivot)

/-- The whole sweep comes to what its positions come to. There is a
poll before each of them. -/
theorem scripted_run (s : Sweep) :
    Job.Scripted s.run ((List.range (8 * s.width)).foldlM advance s) :=
  Job.scripted_foldlM scripted_step s _

/-- What every position keeps, a run over the first positions keeps.
That is the run lemma for every invariant of the sweep. -/
theorem keeps_foldlM {P : Nat → Sweep → Prop}
    (hstep : ∀ {i pivot : Nat} {s : Sweep}, P i s →
      s.working.find? (·.testBit (s.bitOf i)) = some pivot →
        P (i + 1) (s.cleared (s.bitOf i) pivot))
    {k : Nat} {s t : Sweep} (hs : P 0 s)
    (h : (List.range k).foldlM advance s = .ok t) : P k t := by
  induction k generalizing t with
  | zero =>
    cases h
    exact hs
  | succ k ih =>
    rw [List.range_succ, List.foldlM_append] at h
    cases hfirst : (List.range k).foldlM advance s with
    | error e =>
      rw [hfirst] at h
      cases h
    | ok u =>
      rw [hfirst] at h
      have hlast : advance u k >>= pure = .ok t := h
      rw [bind_pure, advance] at hlast
      cases hfind : u.working.find? (·.testBit (u.bitOf k)) with
      | none =>
        rw [hfind] at hlast
        cases hlast
      | some pivot =>
        rw [hfind] at hlast
        cases hlast
        exact hstep (ih hfirst) hfind

end XorSpan.Sweep
