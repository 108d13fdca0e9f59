/-
What is left of a list when pairs cancel: the values that occur an odd
number of times, once each, in the order in which they first came
(`oddOnes_outcome`). They have the sum of the whole list, and neither they
nor the sum can tell that some value was put in twice.

Members and order are read off the list without its repeats, of which the
odd values are a part; a list that has no repeats keeps all of itself, so
cancelling once is enough.
-/
import XorSpan.Proofs.Bytewise

namespace XorSpan.Bytes

variable {values front middle back : List Bytes} {u v : Bytes} {n : Nat}

-- ================================================================= order

/-- A list without its repeats is in the order of first appearance. -/
theorem pairwise_idxOf_eraseDups (values : List Bytes) :
    values.eraseDups.Pairwise fun u v => values.idxOf u < values.idxOf v := by
  induction values using List.reverseRecOn with
  | nil => exact .nil
  | append_singleton values w ih =>
    have hbefore : values.eraseDups.Pairwise fun u v =>
        (values ++ [w]).idxOf u < (values ++ [w]).idxOf v := by
      refine ih.imp_of_mem ?_
      intro u v hu hv h
      rw [List.idxOf_append_of_mem (List.mem_eraseDups.1 hu),
        List.idxOf_append_of_mem (List.mem_eraseDups.1 hv)]
      exact h
    rw [Table.eraseDups_concat]
    split
    · exact hbefore
    · next hw =>
      refine List.pairwise_append.2 ⟨hbefore, List.pairwise_singleton _ _, ?_⟩
      intro u hu v hv
      rw [List.mem_singleton.1 hv, List.idxOf_append_of_notMem hw,
        List.idxOf_cons_self, List.idxOf_append_of_mem
          (List.mem_eraseDups.1 hu)]
      exact List.idxOf_lt_length_of_mem (List.mem_eraseDups.1 hu)

theorem pairwise_idxOf_oddOnes (values : List Bytes) :
    (oddOnes values).Pairwise fun u v => values.idxOf u < values.idxOf v := by
  rw [oddOnes_eq]
  exact (pairwise_idxOf_eraseDups values).filter _

-- ============================================================ once enough

theorem eraseDups_of_nodup (h : values.Nodup) : values.eraseDups = values := by
  induction values with
  | nil => rfl
  | cons v values ih =>
    obtain ⟨hv, hvalues⟩ := List.nodup_cons.1 h
    have hkeeps : values.filter (fun u => !u == v) = values := by
      refine List.filter_eq_self.2 fun u hu => ?_
      have hne : u ≠ v := fun heq => hv (heq ▸ hu)
      simpa using hne
    rw [List.eraseDups_cons, hkeeps, ih hvalues]

/-- Values that occur once occur an odd number of times. -/
theorem oddOnes_of_nodup (h : values.Nodup) : oddOnes values = values := by
  rw [oddOnes_eq, eraseDups_of_nodup h]
  refine List.filter_eq_self.2 fun v hv => ?_
  rw [List.count_eq_one_of_mem h hv]
  rfl

-- ================================================================== sums

theorem sum_oddOnes (h : ∀ v ∈ values, v.size = n) :
    sum (oddOnes values) n = sum values n := by
  have hodd : ∀ v ∈ oddOnes values, v.size = n :=
    fun v hv => h v (mem_of_mem_oddOnes hv)
  have htotal : xorAll n (oddOnes values) = xorAll n values := by
    refine eq_of_toWord_eq ((size_xorAll hodd).trans (size_xorAll h).symm) ?_
    rw [toWord_xorAll hodd, toWord_xorAll h]
    exact xorSum_oddOnes toWord values
  rw [sum_eq hodd, sum_eq h, htotal]

-- ========================================================= put in twice

/-- A value put in twice, each time at any place. -/
def twice (v : Bytes) (front middle back : List Bytes) : List Bytes :=
  front ++ v :: (middle ++ v :: back)

theorem twice_perm (v : Bytes) (front middle back : List Bytes) :
    (twice v front middle back).Perm (v :: v ::
      (front ++ (middle ++ back))) := by
  have hinner : (middle ++ v :: back).Perm (v :: (middle ++ back)) :=
    List.perm_middle
  have houter : (front ++ v :: (middle ++ back)).Perm
      (v :: (front ++ (middle ++ back))) :=
    List.perm_middle
  exact List.perm_middle.trans
    (((hinner.append_left front).trans houter).cons v)

/-- An even number of occurrences more makes no difference. They may
be put in anywhere. -/
theorem mem_oddOnes_twice : u ∈ oddOnes (twice v front middle back) ↔
    u ∈ oddOnes (front ++ (middle ++ back)) := by
  rw [mem_oddOnes, mem_oddOnes, (twice_perm v front middle back).count_eq,
    List.count_cons, List.count_cons]
  split
  · omega
  · rfl

theorem oddOnes_twice_perm : (oddOnes (twice v front middle back)).Perm
    (oddOnes (front ++ (middle ++ back))) :=
  (List.perm_ext_iff_of_nodup (nodup_oddOnes _) (nodup_oddOnes _)).2 fun _ =>
    mem_oddOnes_twice

/-- Two equal summands cancel. So a value put in twice is not noticed. -/
theorem sum_twice (hv : v.size = n)
    (h : ∀ u ∈ front ++ (middle ++ back), u.size = n) :
    sum (twice v front middle back) n = sum (front ++ (middle ++ back)) n := by
  have hpair : ∀ u ∈ v :: v :: (front ++ (middle ++ back)), u.size = n :=
    List.forall_mem_cons.2 ⟨hv, List.forall_mem_cons.2 ⟨hv, h⟩⟩
  have htotal : xorAll n (v :: v :: (front ++ (middle ++ back))) =
      xorAll n (front ++ (middle ++ back)) := by
    refine eq_of_toWord_eq ((size_xorAll hpair).trans (size_xorAll h).symm) ?_
    rw [toWord_xorAll hpair, toWord_xorAll h, List.map_cons,
      List.map_cons, xorSum_cons, xorSum_cons, ← Nat.xor_assoc,
      Nat.xor_self, Nat.zero_xor]
  rw [sum_eq h, ← htotal]
  exact sum_perm (twice_perm v front middle back).symm (sum_eq hpair)

-- =============================================================== outcome

/-- Of a list, those values are left that occur an odd number of
times, each once and in the order of their first appearance; they have
the sum of the list, and none of them goes when pairs are cancelled
again. A value put in twice, at whatever places, changes neither which
values are left nor their sum, nor the sum of the list if it is as
long as the others. A request about bytes is answered so. -/
theorem oddOnes_outcome (values : List Bytes) :
    (∀ v, v ∈ oddOnes values ↔ values.count v % 2 = 1) ∧
    (oddOnes values).Nodup ∧
    ((oddOnes values).Pairwise fun u v => values.idxOf u < values.idxOf v) ∧
    (∀ n : Nat, (∀ v ∈ values, v.size = n) →
      ∃ total, sum values n = .ok total ∧ sum (oddOnes values) n = .ok total) ∧
    oddOnes (oddOnes values) = oddOnes values ∧
    (∀ front middle back v, values = front ++ (middle ++ back) →
      (∀ u, u ∈ oddOnes (twice v front middle back) ↔ u ∈ oddOnes values) ∧
      ∀ n : Nat, (∀ u ∈ values, u.size = n) →
        sum (oddOnes (twice v front middle back)) n = sum (oddOnes values) n ∧
        (v.size = n → sum (twice v front middle back) n = sum values n)) ∧
    Request.oddOnes (values.map .bytes) = .ok (oddOnes values) := by
  refine ⟨fun v => mem_oddOnes, nodup_oddOnes values,
    pairwise_idxOf_oddOnes values, ?_, oddOnes_of_nodup (nodup_oddOnes values),
    ?_, Request.oddOnes_bytes⟩
  · intro n h
    exact ⟨_, sum_eq h, (sum_oddOnes h).trans (sum_eq h)⟩
  · intro front middle back v hvalues
    subst hvalues
    refine ⟨fun u => mem_oddOnes_twice, ?_⟩
    intro n h
    have hodd := (sum_oddOnes h).trans (sum_eq h)
    refine ⟨?_, fun hv => sum_twice hv h⟩
    rw [hodd]
    exact sum_perm oddOnes_twice_perm.symm hodd

/-- A value put in on both sides of the first, and another three
times. -/
theorem oddOnes_outcome_six :
    (∀ u, u ∈ oddOnes [#[2], #[1], #[2], #[3], #[3], #[3]] ↔
      u ∈ oddOnes [#[1], #[3], #[3], #[3]]) ∧
    sum [#[2], #[1], #[2], #[3], #[3], #[3]] 1 =
      sum [#[1], #[3], #[3], #[3]] 1 ∧
    ∃ total, sum [#[1], #[3], #[3], #[3]] 1 = .ok total ∧
      sum (oddOnes [#[1], #[3], #[3], #[3]]) 1 = .ok total := by
  have hsizes : ∀ v ∈ [#[1], #[3], #[3], #[3]],
      (v : Bytes).size = 1 := by decide
  obtain ⟨-, -, -, hsum, -, htwice, -⟩ :=
    oddOnes_outcome [#[1], #[3], #[3], #[3]]
  obtain ⟨hmembers, hsums⟩ := htwice [] [#[1]] [#[3], #[3], #[3]] #[2] rfl
  exact ⟨hmembers, (hsums 1 hsizes).2 rfl, hsum 1 hsizes⟩

end XorSpan.Bytes
