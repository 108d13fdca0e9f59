/-
Where a sweep stands at each of its positions, and what the contribution
pass does there.

In front of a position the entries at work and the residual have none of
the bits passed, and the total and the residual make up the target
(`Standing`). That is the invariant of the sweep, seen bit by bit.

The pass itself compares each entry with a residual that the entries
before it have changed. Up to the pivot, the first entry with the bit,
nothing can change the residual's bit: if it is set, nothing is added,
and if it is clear, so is that of every entry added. The pivot settles
the bit, and behind it the residual is without it. So the pivot is the
only entry with the bit that a pass can add, and it adds it if the
residual had the bit at first (`contribution`).

`find_positions` says both of the finder's own run, taken apart at a
position into what comes before, the position, and what comes after.
-/
import XorSpan.Proofs.Cancellation

namespace XorSpan

namespace Sweep

variable {bit pivot j k w : Nat} {b : Balance} {entries : List Nat}

-- ======================================================= parts of a pass

/-- A pass over some entries and one more. So what the pass has done
in front of an entry can be followed entry by entry. -/
theorem contributeAll_take_succ (b : Balance) (hj : entries[j]? = some w) :
    contributeAll bit b (entries.take (j + 1)) =
      contribute bit (contributeAll bit b (entries.take j)) w := by
  have htake : entries.take (j + 1) = entries.take j ++ [w] := by
    rw [List.take_add_one, hj]
    rfl
  rw [htake, contributeAll, List.foldl_append]
  rfl

/-- While the residual has the bit, entries without it are passed
over. They do not have what the residual needs. -/
theorem contributeAll_of_set (hb : b.residual.testBit bit = true)
    (hclear : ∀ w ∈ entries, w.testBit bit =
      false) : contributeAll bit b entries = b := by
  induction entries with
  | nil => rfl
  | cons w entries ih =>
    obtain ⟨hw, hentries⟩ := List.forall_mem_cons.1 hclear
    have hskip : contribute bit b w = b :=
      if_neg (by rw [hw, hb]; exact Bool.false_ne_true)
    rw [contributeAll_cons, hskip]
    exact ih hentries

/-- Entries without the bit leave the residual's bit as it is. That is
so whether they are added or passed over. -/
theorem testBit_residual_contributeAll_of_forall (b : Balance)
    (hclear : ∀ w ∈ entries, w.testBit bit = false) :
    (contributeAll bit b entries).residual.testBit bit =
      b.residual.testBit bit := by
  cases hb : b.residual.testBit bit with
  | false => exact testBit_residual_contributeAll_of_clear entries hb
  | true => rw [contributeAll_of_set hb hclear, hb]

/-- Once the residual is without the bit, all entries without it are
added, and no others. -/
theorem appended_contributeAll_of_clear (hb : b.residual.testBit bit = false)
    (entries : List Nat) :
    (contributeAll bit b entries).appended =
      (entries.filter fun w => !w.testBit bit).reverse ++ b.appended := by
  induction entries generalizing b with
  | nil => rfl
  | cons w entries ih =>
    rw [contributeAll_cons, ih (testBit_residual_contribute_of_clear w hb)]
    unfold contribute
    cases hw : w.testBit bit with
    | false => simp [hb, hw]
    | true => simp [hb, hw]

-- ============================================================= the pivot

/-- The pivot stands at `k`: it has the bit, and no entry before it. -/
structure PivotAt (bit : Nat) (entries : List Nat) (k pivot : Nat) : Prop where
  entry : entries[k]? = some pivot
  set : pivot.testBit bit = true
  before : ∀ w ∈ entries.take k, w.testBit bit = false

/-- The entry that a position finds stands somewhere. Its copies may
stand behind it, but none before. -/
theorem exists_pivotAt (h : entries.find? (·.testBit bit) = some pivot) :
    ∃ k, PivotAt bit entries k pivot := by
  obtain ⟨hpivot, before, after, rfl, hbefore⟩ :=
    List.find?_eq_some_iff_append.1 h
  refine ⟨before.length, ?_, hpivot, fun w hw => ?_⟩
  · rw [List.getElem?_append_right (Nat.le_refl _), Nat.sub_self]
    rfl
  · rw [List.take_left] at hw
    simpa using hbefore w hw

namespace PivotAt

theorem mem (h : PivotAt bit entries k pivot) : pivot ∈ entries :=
  List.mem_of_getElem? h.entry

/-- The pivot comes first of the entries with the bit. What stands
before it does not have the bit. -/
theorem le (h : PivotAt bit entries k pivot) (hj : entries[j]? = some w)
    (hw : w.testBit bit = true) : k ≤ j := by
  by_contra hlt
  obtain ⟨hlen, hget⟩ := List.getElem?_eq_some_iff.1 hj
  rw [h.before w (List.mem_take_iff_getElem.2 ⟨j, by omega, hget⟩)] at hw
  cases hw

/-- In front of the pivot the residual's bit is what it was at first.
So whether the pivot is needed is known before the pass. -/
theorem testBit_residual_take (h : PivotAt bit entries k pivot) (b : Balance) :
    (contributeAll bit b (entries.take k)).residual.testBit bit =
      b.residual.testBit bit :=
  testBit_residual_contributeAll_of_forall b h.before

/-- Behind it, the residual is without the bit. It was without it all
along, or the pivot has taken it away. -/
theorem testBit_residual_take_of_lt (h : PivotAt bit entries k pivot)
    (b : Balance) (hj : k < j) :
    (contributeAll bit b (entries.take j)).residual.testBit bit = false := by
  obtain ⟨hlen, hget⟩ := List.getElem?_eq_some_iff.1 h.entry
  exact testBit_residual_contributeAll b
    (List.mem_take_iff_getElem.2 ⟨k, by omega, hget⟩) h.set

/-- A residual with the bit waits for the pivot. Then the pivot is
added, and the entries behind it are judged by what is left. -/
theorem contributeAll_eq (h : PivotAt bit entries k pivot)
    (hb : b.residual.testBit bit = true) :
    contributeAll bit b entries =
      contributeAll bit (contribute bit b pivot) (entries.drop (k + 1)) := by
  have hfront : contributeAll bit b (entries.take (k + 1)) =
      contribute bit b pivot := by
    rw [contributeAll_take_succ b h.entry, contributeAll_of_set hb h.before]
  rw [← hfront, contributeAll, contributeAll, contributeAll,
    ← List.foldl_append, List.take_append_drop]

/-- What a pass adds: the pivot and the entries behind it without the
bit, if the residual has the bit at first, and else all entries
without it. -/
theorem appended_contributeAll (h : PivotAt bit entries k pivot) (b : Balance) :
    (contributeAll bit b entries).appended =
      (if b.residual.testBit bit then
        pivot :: (entries.drop (k + 1)).filter fun w => !w.testBit bit
      else entries.filter fun w => !w.testBit bit).reverse ++ b.appended := by
  cases hb : b.residual.testBit bit with
  | false => exact appended_contributeAll_of_clear hb entries
  | true =>
    have hadded : (contribute bit b pivot).appended = pivot :: b.appended := by
      rw [contribute, if_pos (by rw [h.set, hb])]
    rw [h.contributeAll_eq hb,
      appended_contributeAll_of_clear
        (testBit_residual_contribute_of_set b h.set), hadded,
      if_pos rfl, List.reverse_cons, List.append_assoc, List.singleton_append]

end PivotAt

-- ============================================================= additions

/-- A pass over the entries adds `w`, the one at `j`. -/
def Adds (bit : Nat) (b : Balance) (entries : List Nat) (j w : Nat) : Prop :=
  entries[j]? = some w ∧
    (contributeAll bit b (entries.take (j + 1))).appended =
      w :: (contributeAll bit b (entries.take j)).appended

/-- It does if the entry agrees with what the residual is by then.
That is the rule by which entries are added, said for each place by
itself. -/
theorem adds_iff : Adds bit b entries j w ↔ entries[j]? = some w ∧
    w.testBit bit = (contributeAll bit b
      (entries.take j)).residual.testBit bit := by
  refine and_congr_right fun hj => ?_
  rw [contributeAll_take_succ b hj]
  unfold contribute
  split
  · next h => exact iff_of_true rfl h
  · next h => exact iff_of_false (List.cons_ne_self _ _).symm h

/-- What a contribution pass does for a bit, with the pivot at `k`. -/
structure Contribution (bit : Nat) (b : Balance) (entries : List Nat)
    (k pivot : Nat) : Prop where
  /-- No other entry with the bit is added. -/
  alone : ∀ j w, Adds bit b entries j w → w.testBit bit = true →
    j = k ∧ w = pivot
  /-- The pivot is added exactly if the residual has the bit at first. -/
  needed : Adds bit b entries k pivot ↔ b.residual.testBit bit = true
  /-- An entry without the bit is added while the residual is without it. -/
  others : ∀ j w, Adds bit b entries j w → w.testBit bit = false →
    (contributeAll bit b (entries.take j)).residual.testBit bit = false
  /-- After the pass the residual is without it. -/
  settled : (contributeAll bit b entries).residual.testBit bit = false
  /-- All that is added, latest first. -/
  appended : (contributeAll bit b entries).appended =
    (if b.residual.testBit bit then
      pivot :: (entries.drop (k + 1)).filter fun w => !w.testBit bit
    else entries.filter fun w => !w.testBit bit).reverse ++ b.appended

theorem contribution (b : Balance) (h : PivotAt bit entries k pivot) :
    Contribution bit b entries k pivot where
  alone j w hadds hw := by
    obtain ⟨hj, hagrees⟩ := adds_iff.1 hadds
    rcases Nat.lt_or_eq_of_le (h.le hj hw) with hlt | rfl
    -- behind the pivot there is nothing left for such an entry to agree with
    · rw [hw, h.testBit_residual_take_of_lt b hlt] at hagrees
      cases hagrees
    · exact ⟨rfl, Option.some.inj (hj.symm.trans h.entry)⟩
  needed := by
    rw [adds_iff, h.testBit_residual_take, h.set]
    exact ⟨fun hadds => hadds.2.symm, fun hb => ⟨h.entry, hb.symm⟩⟩
  others j w hadds hw := by
    rw [← (adds_iff.1 hadds).2, hw]
  settled := testBit_residual_contributeAll b h.mem h.set
  appended := h.appended_contributeAll b

-- ============================================================= positions

/-- A run is its first positions, the next one, and the rest. It is
cut at a position in order to say what holds there. -/
theorem run_eq_bind {s : Sweep} {i : Nat} (hi : i < 8 * s.width) :
    s.run = (List.range i).foldlM step s >>= fun t => t.step i >>= fun u =>
      (List.range' (i + 1) (8 * s.width - (i + 1))).foldlM step u := by
  have hpositions : List.range (8 * s.width) =
      List.range i ++ i :: List.range' (i + 1) (8 * s.width - (i + 1)) := by
    rw [← List.range'_succ, List.range_eq_range', List.range_eq_range']
    have hrest : 8 * s.width - (i + 1) + 1 = 8 * s.width - i := by omega
    -- the positions before `i` and those from `i` on are all of them
    have hjoin := List.range'_append_1 (s := 0) (m := i) (n := 8 * s.width - i)
    rw [Nat.zero_add, Nat.add_sub_of_le (Nat.le_of_lt hi)] at hjoin
    rw [hrest, hjoin]
  rw [run, hpositions, List.foldlM_append]
  rfl

/-- Where a sweep stands in front of position `i`. -/
structure Standing (target : Bytes) (i : Nat) (s : Sweep) : Prop where
  width : s.width = target.size
  working_lt : ∀ w ∈ s.working, w < 2 ^ (8 * target.size)
  residual_lt : s.balance.residual < 2 ^ (8 * target.size)
  /-- The bits passed are clear. -/
  working_clear : ∀ w ∈ s.working, ∀ p < i, w.testBit (s.bitOf p) = false
  residual_clear : ∀ p < i, s.balance.residual.testBit (s.bitOf p) = false
  balanced : s.balance.total ^^^ s.balance.residual = target.toWord

/-- Being short is to have none of the first bits. The invariant of
the sweep bounds the words at work; here their bits are spoken of by
position. -/
theorem Sound.standing {target : Bytes} {pool : List Bytes}
    {s : Sweep} {i : Nat}
    (h : Sound target pool (8 * target.size - i) s) : Standing target i s := by
  have hpow : 2 ^ (8 * target.size - i) ≤ 2 ^ (8 * target.size) :=
    Nat.pow_le_pow_right (by decide) h.fits
  have hclear {v p : Nat} (hv : v < 2 ^ (8 * target.size - i)) (hp : p < i) :
      v.testBit (s.bitOf p) = false := by
    refine Nat.testBit_lt_two_pow
      (Nat.lt_of_lt_of_le hv (Nat.pow_le_pow_right (by decide) ?_))
    rw [bitOf, h.width]
    omega
  exact
    { width := h.width
      working_lt := fun w hw => Nat.lt_of_lt_of_le (h.working_lt w hw) hpow
      residual_lt := Nat.lt_of_lt_of_le h.residual_lt hpow
      working_clear := fun w hw p hp => hclear (h.working_lt w hw) hp
      residual_clear := fun p hp => hclear h.residual_lt hp
      balanced := h.balanced }

end Sweep

-- ================================================================== runs

namespace Solution

open Sweep Job

variable {target : Bytes} {pool : List Bytes} {i : Nat}

/-- The finder's run up to a position of its sweep. -/
def approach (target : Bytes) (pool : List Bytes) (i : Nat) : Job Sweep := do
  Job.poll .start
  (List.range i).foldlM Sweep.step (Sweep.initial target pool)

/-- The finder's run behind a position of its sweep. -/
def completion (target : Bytes) (pool : List Bytes) (i : Nat) (s : Sweep) :
    Job Solution := do
  ofSweep target pool
    (← (List.range' (i + 1) (8 * target.size - (i + 1))).foldlM Sweep.step s)

theorem find_eq_bind (hacc : Accepted target pool)
    (hzero : target.isZero = false) (hi : i < 8 * target.size) :
    find target pool = approach target pool i >>= fun s =>
      s.step i >>= completion target pool i := by
  have hrun : (Sweep.initial target pool).run = _ := run_eq_bind hi
  unfold find approach completion
  rw [checkInputs_eq_ok_iff.2 hacc, hzero, if_neg Bool.false_ne_true, hrun]
  simp only [bind_assoc]
  rfl

theorem scripted_approach (target : Bytes) (pool : List Bytes) (i : Nat) :
    Scripted (approach target pool i) ((List.range i).foldlM advance
      (initial target pool)) :=
  (scripted_poll _).bind (scripted_foldlM scripted_step _ _)

/-- A position is reached by a sound sweep. It is so under any signal,
as one that stops the sweep does not reach it. -/
theorem sound_of_approach {s : Sweep} {signal : Signal} {p q : Progress}
    (hacc : Accepted target pool) (hi : i ≤ 8 * target.size)
    (h : approach target pool i signal p = .ok s q) :
    Sweep.Sound target pool (8 * target.size - i) s := by
  have hreaches := reaches_foldlM hacc.sizes hi
  rw [(scripted_approach target pool i).eq_ok_of_run h] at hreaches
  cases hreaches with
  | swept sound => exact sound

/-- The positions of the sweep for a nonzero target. The finder's run
can be taken apart at each. Whenever a run, cancelled later or not,
comes to a position, the entries at work and the residual are words of
the target's length without the bits passed, and total and residual
make up the target. If there is a pivot, the step comes to the sweep
with the bit cleared, and the contribution pass adds no entry with the
bit but the pivot, adds that exactly if the residual had the bit, adds
others only while the residual is without it, and leaves the residual
without it. -/
theorem find_positions (hacc : Accepted target pool)
    (hzero : target.isZero = false) (hi : i < 8 * target.size) :
    find target pool = (approach target pool i >>= fun s =>
      s.step i >>= completion target pool i) ∧
    ∀ signal p s q, approach target pool i signal p = .ok s q →
      Standing target i s ∧
      ∀ pivot, s.working.find? (·.testBit (s.bitOf i)) = some pivot →
        (s.step i).outcome = .ok (s.cleared (s.bitOf i) pivot) ∧
        ∃ k, PivotAt (s.bitOf i) s.working k pivot ∧
          Contribution (s.bitOf i) s.balance s.working k pivot := by
  refine ⟨find_eq_bind hacc hzero hi,
    fun signal p s q hreached => ⟨?_, fun pivot hfind => ?_⟩⟩
  · exact (sound_of_approach hacc (Nat.le_of_lt hi) hreached).standing
  · have hadvance : s.advance i = .ok (s.cleared (s.bitOf i) pivot) := by
      rw [advance, hfind]
    obtain ⟨k, hpivot⟩ := exists_pivotAt hfind
    refine ⟨?_, k, hpivot, contribution s.balance hpivot⟩
    rw [(scripted_step s i).outcome_eq, hadvance]

/-- On the way to `3` over itself and the unit values, the last but
one position finds `3`, `1` and `2` at work and the residual at `3`,
so it adds the pivot, which is `3`; and then `1`, but not `2`. -/
theorem find_positions_three : ∃ s,
    ComesTo (approach #[3] (#[3] :: Bytes.units 1) 6) s ∧
    s.working = [3, 1, 2] ∧
      Standing #[3] 6 s ∧ s.working.find? (·.testBit (s.bitOf 6)) = some 3 ∧
      Adds (s.bitOf 6) s.balance s.working 0 3 ∧
      (contributeAll (s.bitOf 6) s.balance s.working).appended =
        1 :: 3 :: s.balance.appended := by
  have hswept :
      ((List.range 6).foldlM advance
        (initial #[3] (#[3] :: Bytes.units 1))).toOption.map
      (fun s => (s.working, s.balance.residual)) = some ([3, 1, 2], 3) := by
        decide +kernel
  have hscript := scripted_approach #[3] (#[3] :: Bytes.units 1) 6
  generalize (List.range 6).foldlM advance
    (initial #[3] (#[3] :: Bytes.units 1)) = r
    at hswept hscript
  cases r with
  | error e => cases hswept
  | ok s =>
    obtain ⟨hworking, hresidual⟩ := Prod.mk.inj (Option.some.inj hswept)
    obtain ⟨p, q, hrun⟩ := comesTo_of_outcome hscript.outcome_eq
    have hacc : Accepted #[3] (#[3] :: Bytes.units 1) :=
      accepted_cons_units rfl (by decide)
    obtain ⟨-, hpositions⟩ :=
      find_positions (i := 6) hacc (by decide +kernel) (by decide)
    obtain ⟨hstanding, hstep⟩ := hpositions .never p s q hrun
    have hbit : s.bitOf 6 = 1 := by
      rw [bitOf, hstanding.width]
      rfl
    have hfind : s.working.find? (·.testBit (s.bitOf 6)) = some 3 := by
      rw [hbit, hworking]
      decide +kernel
    obtain ⟨-, k, hpivot, hpass⟩ := hstep 3 hfind
    obtain rfl : k = 0 := by
      refine Nat.le_zero.1 (hpivot.le (w := 3) ?_ hpivot.set)
      rw [hworking]
      rfl
    have hset : s.balance.residual.testBit (s.bitOf 6) = true := by
      rw [hbit, hresidual]
      decide +kernel
    refine ⟨s, ⟨p, q, hrun⟩, hworking, hstanding, hfind,
      hpass.needed.2 hset, ?_⟩
    rw [hpass.appended, if_pos hset, hbit, hworking]
    rfl

end Solution

end XorSpan
