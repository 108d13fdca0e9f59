/-
What the parities mean. Handing parities down parents first keeps a
total: if every node is worth what it is worth by itself and what its
children are worth, then the worth of the marked nodes by themselves, at
the end, is the worth of the nodes marked at the beginning
(`markedSum_handDown`). With only the root marked at the beginning that
is the worth of the root.

Two choices of worth are wanted. Counting ways to a node, by their
parity, says that a node is marked at the end exactly if an odd number of
ways lead to it (`odd_iff`). Taking words, the leaves that are marked add
up to the target, which is how the reduction uses it.
-/
import XorSpan.Graph.Parity
import XorSpan.Proofs.Graph.Order
import XorSpan.Proofs.XorSum

namespace XorSpan.Graph

variable {g : Graph} {parity : Array Bool}
    {children order places : List Nat} {i j : Nat}
  {value own total : Nat → Nat}

-- ================================================================ marks

@[simp] theorem size_flip (parity : Array Bool) (i : Nat) :
    (flip parity i).size = parity.size := by
  unfold flip
  exact Array.size_modify

/-- Turning a mark over turns that one over, -/
theorem getD_flip_self (hi : i < parity.size) :
    (flip parity i).getD i false = !parity.getD i false := by
  unfold flip
  rw [Array.getD_eq_getD_getElem?, Array.getElem?_modify, if_pos rfl,
    Array.getD_eq_getD_getElem?, Array.getElem?_eq_getElem hi]
  rfl

/-- and no other. -/
theorem getD_flip_of_ne (h : j ≠ i) :
    (flip parity i).getD j false = parity.getD j false := by
  unfold flip
  rw [Array.getD_eq_getD_getElem?, Array.getElem?_modify, if_neg (Ne.symm h),
    ← Array.getD_eq_getD_getElem?]

theorem size_foldl_flip (parity : Array Bool) (children : List Nat) :
    (children.foldl flip parity).size = parity.size := by
  induction children generalizing parity with
  | nil => rfl
  | cons c children ih => rw [List.foldl_cons, ih, size_flip]

/-- A node that is not listed keeps its mark. -/
theorem getD_foldl_flip_of_not_mem (h : j ∉ children) :
    (children.foldl flip parity).getD j false = parity.getD j false := by
  induction children generalizing parity with
  | nil => rfl
  | cons c children ih =>
    have hne : j ≠ c := List.ne_of_not_mem_cons h
    rw [List.foldl_cons, ih (List.not_mem_of_not_mem_cons h),
      getD_flip_of_ne hne]

/-- Every reference turns the mark of its child over. Two references
to one child turn it twice, which is what makes the marks count. -/
theorem markedSum_foldl_flip (hnodup : places.Nodup)
    (hrange : ∀ i ∈ places, i < parity.size)
    (hchildren : ∀ c ∈ children, c ∈ places) :
    markedSum ((children.foldl flip parity).getD · false) value places =
      xorSum (children.map value) ^^^
        markedSum (parity.getD · false) value places := by
  induction children generalizing parity with
  | nil => rw [List.foldl_nil, List.map_nil, xorSum_nil, Nat.zero_xor]
  | cons c children ih =>
    obtain ⟨hc, hrest⟩ := List.forall_mem_cons.1 hchildren
    have hrange' : ∀ i ∈ places, i < (flip parity c).size := by
      intro i hi
      rw [size_flip]
      exact hrange i hi
    have htoggle : markedSum ((flip parity c).getD · false) value places =
        value c ^^^ markedSum (parity.getD · false) value places :=
      markedSum_toggle hnodup hc (getD_flip_self (hrange c hc)) fun b hb =>
        getD_flip_of_ne hb
    rw [List.foldl_cons, ih hrange' hrest, htoggle, List.map_cons, xorSum_cons,
      ← Nat.xor_assoc, Nat.xor_comm (xorSum _) (value c)]

-- ========================================================== handing down

/-- A node that is marked turns the marks of its children over, once
for each reference; one that is not marked leaves them. -/
theorem handDown_eq (g : Graph) (parity : Array Bool) (i : Nat) :
    g.handDown parity i =
      if parity.getD i false then (g.childrenAt i).toList.foldl flip parity
        else parity := by
  unfold handDown
  rw [Array.foldl_toList]

theorem size_handDown (g : Graph) (parity : Array Bool) (i : Nat) :
    (g.handDown parity i).size = parity.size := by
  rw [handDown_eq]
  split
  · exact size_foldl_flip ..
  · rfl

/-- A node that is no child of `i` keeps its mark. Only references
change marks. -/
theorem getD_handDown_of_not_mem (h : j ∉ g.childrenAt i) :
    (g.handDown parity i).getD j false = parity.getD j false := by
  rw [handDown_eq]
  split
  · exact getD_foldl_flip_of_not_mem fun hj => h (Array.mem_toList_iff.1 hj)
  · rfl

/-- So a node that is nobody's child keeps its mark all through. -/
theorem getD_foldl_handDown_of_not_mem (h : ∀ i ∈ order, j ∉ g.childrenAt i) :
    (order.foldl g.handDown parity).getD j false = parity.getD j false := by
  induction order generalizing parity with
  | nil => rfl
  | cons i order ih =>
    obtain ⟨hi, horder⟩ := List.forall_mem_cons.1 h
    rw [List.foldl_cons, ih horder, getD_handDown_of_not_mem hi]

/-- What the marked nodes are worth is kept, down to what they are
worth by themselves. -/
theorem markedSum_handDown (horder : ParentsFirst g order)
    (hrange : ∀ i ∈ order, i < parity.size)
    (htotal : ∀ i ∈ order, total i =
      own i ^^^ xorSum ((g.childrenAt i).toList.map total)) :
    markedSum ((order.foldl g.handDown parity).getD · false) own order =
      markedSum (parity.getD · false) total order := by
  induction horder generalizing parity with
  | nil => rfl
  | @cons i rest hi hchildren hrest ih =>
    obtain ⟨hlt, hrange⟩ := List.forall_mem_cons.1 hrange
    obtain ⟨htotali, htotal⟩ := List.forall_mem_cons.1 htotal
    have hrange' : ∀ k ∈ rest, k < (g.handDown parity i).size := by
      intro k hk
      rw [size_handDown]
      exact hrange k hk
    -- nothing after `i` has `i` for a child, nor has `i` itself
    have hkept : (rest.foldl g.handDown (g.handDown parity i)).getD i false =
        parity.getD i false := by
      rw [getD_foldl_handDown_of_not_mem
        fun k hk hmem => hi (hrest.mem_of_child hk hmem),
        getD_handDown_of_not_mem fun hmem => hi (hchildren i hmem)]
    rw [List.foldl_cons, markedSum_cons, markedSum_cons, hkept,
      ih hrange' htotal, handDown_eq]
    by_cases hodd : parity.getD i false = true
    · rw [if_pos hodd, if_pos hodd, if_pos hodd, htotali, Nat.xor_assoc]
      congr 1
      exact markedSum_foldl_flip hrest.nodup hrange fun c hc =>
        hchildren c (Array.mem_toList_iff.1 hc)
    · rw [if_neg hodd, if_neg hodd, if_neg hodd]

-- ============================================================== the root

/-- The parities at the end, for nodes listed in an order. -/
def parityOf (g : Graph) (order : List Nat) : Array Bool :=
  order.foldl g.handDown g.rootParity

theorem size_rootParity (g : Graph) : g.rootParity.size = g.size := by
  unfold rootParity
  simp

/-- At first only the root is marked. -/
theorem getD_rootParity (g : Graph) (i : Nat) :
    g.rootParity.getD i false = true ↔ i = 0 := by
  have hpos : 0 < g.size := g.nonempty
  unfold rootParity
  rw [Array.getD_eq_getD_getElem?, Array.getElem?_setIfInBounds]
  by_cases hi : i = 0
  · subst hi
    simp [hpos]
  · rw [if_neg (Ne.symm hi), Array.getElem?_replicate]
    split <;> simp [hi]

/-- What the nodes that are marked in the end are worth by themselves
is what the root is worth. -/
theorem markedSum_parityOf (horder : ParentsFirst g order) (hroot : 0 ∈ order)
    (hrange : ∀ i ∈ order, i < g.size)
    (htotal : ∀ i ∈ order, total i =
      own i ^^^ xorSum ((g.childrenAt i).toList.map total)) :
    markedSum ((g.parityOf order).getD · false) own order = total 0 := by
  have hrange' : ∀ i ∈ order, i < g.rootParity.size := by
    rw [size_rootParity]
    exact hrange
  unfold parityOf
  rw [markedSum_handDown horder hrange' htotal]
  exact markedSum_single horder.nodup hroot (getD_rootParity g)

/-- A node is marked in the end exactly if an odd number of ways lead
to it. It is the worth lemma, with every node worth the parity of its
ways to one that is fixed. -/
theorem odd_iff (horder : ParentsFirst g order) (hroot : 0 ∈ order)
    (hrange : ∀ i ∈ order, i < g.size) (hj : j ∈ order) :
    (g.parityOf order).getD j false = true ↔ Odd (g.ways 0 j).ncard := by
  have htotal : ∀ i ∈ order,
      (g.ways i j).ncard % 2 = (if i = j then 1 else 0) ^^^
      xorSum ((g.childrenAt i).toList.map fun c => (g.ways c j).ncard % 2) := by
    intro i hi
    have hfinite : ∀ c ∈ g.childrenAt i, (g.ways c j).Finite :=
      fun c hc => horder.finite_ways (horder.mem_of_child hi hc) j
    rw [ncard_ways hfinite, xorSum_mod_two, ← mod_two_xor_mod_two]
    congr 1
    split <;> rfl
  have hsum : markedSum ((g.parityOf order).getD · false)
      (fun i => if i = j then 1 else 0) order =
      (g.ways 0 j).ncard % 2 := markedSum_parityOf horder hroot hrange htotal
  have hswap : markedSum ((g.parityOf order).getD · false)
      (fun i => if i = j then 1 else 0) order =
      markedSum (· = j) (fun i =>
        if (g.parityOf order).getD i false then 1 else 0) order := by
    unfold markedSum
    congr 1
    refine List.map_congr_left ?_
    intro i _
    by_cases hij : i = j <;> simp [hij]
  rw [Nat.odd_iff, ← hsum, hswap,
    markedSum_single horder.nodup hj fun i => decide_eq_true_iff]
  split
  · next h => simp [h]
  · next h => simp [h]

/-- In a graph that can be ordered, the parities are found. They are
handed down in that order, with a poll for each node in it. -/
theorem scripted_parity (h : Job.Scripted g.order (.ok order)) :
    Job.Scripted g.parity (.ok (g.parityOf order)) := by
  unfold parity
  exact h.bind (Job.scripted_visit_ok _ g.handDown g.rootParity order)

end XorSpan.Graph
