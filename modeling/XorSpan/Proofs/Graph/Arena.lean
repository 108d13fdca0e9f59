/-
One edit of a graph. Asking for a value never changes what an older node
stands for, and attaching one changes the children of the parent alone;
so what is known of a graph can be carried along from edit to edit.

`Attached` says all that the expansion relies on: where the value went,
that the index is still exact, and what stayed as it was.
-/
import XorSpan.Graph.Basic

namespace XorSpan.Graph

variable {g h : Graph} {i j parent : Nat} {v : Bytes} {added : Bool}
    {f : Node → Node}

/-- The values that a node is to be the XOR of. -/
def summands (g : Graph) (i : Nat) : List Bytes :=
  (g.childrenAt i).toList.map g.valueAt

/-- The index finds every node but the root, each by its value. -/
def Indexed (g : Graph) : Prop :=
  ∀ v i, g.indexOf? v = some i ↔ 0 < i ∧ i < g.size ∧ g.valueAt i = v

/-- No two nodes below the root have the same value. The root is
apart, as it is not found by its value. -/
theorem Indexed.inj (hg : g.Indexed) (hi : 0 < i ∧ i < g.size)
    (hj : 0 < j ∧ j < g.size)
    (h : g.valueAt i = g.valueAt j) : i = j := by
  have hindex : g.indexOf? (g.valueAt j) = some i := (hg _ i).2 ⟨hi.1, hi.2, h⟩
  rw [(hg _ j).2 ⟨hj.1, hj.2, rfl⟩] at hindex
  exact (Option.some.inj hindex).symm

/-- A node below the root that nothing is known to make up. -/
def LeafAt (g : Graph) (i : Nat) : Prop :=
  0 < i ∧ i < g.size ∧ g.childrenAt i = #[]

instance (g : Graph) (i : Nat) : Decidable (LeafAt g i) := by
  unfold LeafAt
  infer_instance

/-- A node has no children exactly if it has no summands. -/
theorem childrenAt_eq_empty_iff : g.childrenAt i = #[] ↔ g.summands i = [] := by
  unfold summands
  rw [List.map_eq_nil_iff, Array.toList_eq_nil_iff]

-- ============================================================ the parts

/-- What is not there has no children. -/
theorem childrenAt_of_le (hi : g.size ≤ i) : g.childrenAt i = #[] := by
  have hnone : g.nodes[i]? = none := Array.getElem?_eq_none hi
  unfold childrenAt
  rw [hnone]
  rfl

/-- So what has a child is there. -/
theorem lt_of_mem_childrenAt (hj : j ∈ g.childrenAt i) : i < g.size := by
  rcases Nat.lt_or_ge i g.size with hi | hi
  · exact hi
  · rw [childrenAt_of_le hi] at hj
    simp at hj

@[simp] theorem size_modify (g : Graph) (i : Nat) (f : Node → Node) :
    (g.modify i f).size = g.size := by
  unfold modify size
  exact Array.size_modify

/-- A change that keeps the value of a node keeps the values of all.
Attaching and counting are such changes. -/
theorem valueAt_modify (hf : ∀ n, (f n).value = n.value) (i j : Nat) :
    (g.modify i f).valueAt j = g.valueAt j := by
  unfold modify valueAt
  simp only [Array.getElem?_modify]
  split
  · cases g.nodes[j]? with
    | none => rfl
    | some n => simp [hf]
  · rfl

/-- Changing one node leaves the children of the others alone. -/
theorem childrenAt_modify_of_ne (f : Node → Node) (hne : j ≠ i) :
    (g.modify i f).childrenAt j = g.childrenAt j := by
  unfold modify childrenAt
  simp only [Array.getElem?_modify]
  rw [if_neg (Ne.symm hne)]

/-- The children of the node itself change as the change says. -/
theorem childrenAt_modify_self (k : Array Nat → Array Nat)
    (hf : ∀ n, (f n).children = k n.children) (hi : i < g.size) :
    (g.modify i f).childrenAt i = k (g.childrenAt i) := by
  have hi' : i < g.nodes.size := hi
  unfold modify childrenAt
  rw [Array.getElem?_modify, if_pos rfl, Array.getElem?_eq_getElem hi']
  exact hf g.nodes[i]

/-- A change that keeps the values of nodes keeps the index right. -/
theorem Indexed.modify (hg : g.Indexed)
    (hf : ∀ n, (f n).value = n.value) (i : Nat) :
    (g.modify i f).Indexed := by
  intro v j
  rw [size_modify, valueAt_modify hf]
  exact hg v j

@[simp] theorem size_add (g : Graph) (v : Bytes) :
    (g.add v).size = g.size + 1 := by
  unfold add size
  exact Array.size_push ..

theorem valueAt_add_self (g : Graph) (v : Bytes) :
    (g.add v).valueAt g.size = v := by
  unfold add valueAt size
  simp

/-- A new node leaves the values of those from before alone. -/
theorem valueAt_add_of_lt (v : Bytes) (hj : j < g.size) :
    (g.add v).valueAt j = g.valueAt j := by
  unfold add valueAt
  rw [Array.getElem?_push_lt hj, Array.getElem?_eq_getElem hj]

/-- A new node has no children. The others keep theirs. -/
theorem childrenAt_add (g : Graph) (v : Bytes) (j : Nat) :
    (g.add v).childrenAt j = g.childrenAt j := by
  by_cases hj : j < g.size
  · unfold add childrenAt
    rw [Array.getElem?_push_lt hj, Array.getElem?_eq_getElem hj]
  · rw [childrenAt_of_le (Nat.not_lt.1 hj)]
    unfold add childrenAt
    rw [Array.getElem?_push]
    split
    · rfl
    · rw [Array.getElem?_eq_none (Nat.not_lt.1 hj)]
      rfl

/-- A new node is found by its value, and the others as before. -/
theorem indexOf?_add (g : Graph) (v u : Bytes) :
    (g.add v).indexOf? u = if v = u then some g.size else g.indexOf? u := by
  unfold add indexOf? size
  rw [Std.HashMap.getElem?_insert]
  simp

/-- A value without a node gets the next number. It was not to be
found before, so nothing is hidden by it. -/
theorem Indexed.add (hg : g.Indexed) (hv : g.indexOf? v = none) :
    (g.add v).Indexed := by
  have hpos : 0 < g.size := g.nonempty
  intro u j
  rw [indexOf?_add, size_add]
  by_cases hvu : v = u
  · subst hvu
    rw [if_pos rfl]
    constructor
    · intro hj
      cases hj
      exact ⟨hpos, Nat.lt_succ_self _, valueAt_add_self g v⟩
    · intro h
      obtain ⟨hj, hlt, hvalue⟩ := h
      rcases Nat.lt_or_eq_of_le (Nat.le_of_lt_succ hlt) with hlt | heq
      · rw [valueAt_add_of_lt v hlt] at hvalue
        rw [(hg v j).2 ⟨hj, hlt, hvalue⟩] at hv
        cases hv
      · rw [heq]
  · rw [if_neg hvu, hg u j]
    constructor
    · intro h
      obtain ⟨hj, hlt, hvalue⟩ := h
      exact ⟨hj, Nat.lt_succ_of_lt hlt, by rw [valueAt_add_of_lt v hlt, hvalue]⟩
    · intro h
      obtain ⟨hj, hlt, hvalue⟩ := h
      rcases Nat.lt_or_eq_of_le (Nat.le_of_lt_succ hlt) with hlt | heq
      · rw [valueAt_add_of_lt v hlt] at hvalue
        exact ⟨hj, hlt, hvalue⟩
      · rw [heq, valueAt_add_self] at hvalue
        exact absurd hvalue hvu

-- =============================================================== asking

/-- `h` is `g` with a node for `v`, the node `i`. -/
structure Asked (g : Graph) (v : Bytes) (h : Graph) (i : Nat)
    (added : Bool) : Prop where
  indexed : h.Indexed
  pos : 0 < i
  value : h.valueAt i = v
  /-- The node was there, or it is the next one. -/
  place : if added then i = g.size ∧ h.size = g.size + 1
    else i < g.size ∧ h.size = g.size
  /-- Nodes are made only for values that have none. -/
  fresh : added = true → g.indexOf? v = none
  valueAt : ∀ j < g.size, h.valueAt j = g.valueAt j
  childrenAt : ∀ j, h.childrenAt j = g.childrenAt j

/-- Asking a graph for a value gives a node with that value, and a
graph with one node more at most. This is all that later proofs know
of it. -/
theorem asked_getOrAdd (hg : g.Indexed) (v : Bytes) :
    Asked g v (g.getOrAdd v).1 (g.getOrAdd v).2.1 (g.getOrAdd v).2.2 := by
  unfold getOrAdd
  cases hv : g.indexOf? v with
  | some i =>
    obtain ⟨hpos, hlt, hvalue⟩ := (hg v i).1 hv
    have hkeep : ∀ n : Node,
        ({ n with usage := n.usage + 1 } : Node).value = n.value :=
      fun _ => rfl
    refine ⟨hg.modify hkeep i, hpos, ?_, ?_, ?_, ?_, ?_⟩
    · rw [valueAt_modify hkeep]
      exact hvalue
    · rw [if_neg Bool.false_ne_true]
      exact ⟨hlt, size_modify ..⟩
    · intro h
      cases h
    · intro j _
      exact valueAt_modify hkeep i j
    · intro j
      by_cases hj : j = i
      · subst hj
        exact childrenAt_modify_self id (fun _ => rfl) hlt
      · exact childrenAt_modify_of_ne _ hj
  | none =>
    refine ⟨hg.add hv, g.nonempty, valueAt_add_self g v, ?_, ?_, ?_,
      childrenAt_add g v⟩
    · rw [if_pos rfl]
      exact ⟨rfl, size_add g v⟩
    · intro _
      exact hv
    · intro j hj
      exact valueAt_add_of_lt v hj

/-- No node is lost by asking, -/
theorem Asked.le_size (ha : Asked g v h i added) : g.size ≤ h.size := by
  have hplace := ha.place
  split at hplace <;> omega

/-- and the one that is given is there. -/
theorem Asked.lt (ha : Asked g v h i added) : i < h.size := by
  have hplace := ha.place
  split at hplace <;> omega

-- ============================================================= attaching

/-- `h` is `g` with the node `i` of `v` as one more child of `parent`. -/
structure Attached (g : Graph) (parent : Nat) (v : Bytes) (h : Graph) (i : Nat)
    (added : Bool) : Prop where
  indexed : h.Indexed
  pos : 0 < i
  lt : i < h.size
  value : h.valueAt i = v
  place : if added then i = g.size ∧ h.size = g.size + 1
    else i < g.size ∧ h.size = g.size
  fresh : added = true → g.indexOf? v = none
  valueAt : ∀ j < g.size, h.valueAt j = g.valueAt j
  children : h.childrenAt parent = (g.childrenAt parent).push i
  others : ∀ j ≠ parent, h.childrenAt j = g.childrenAt j

/-- Attaching a value to a node of the graph asks for its node, and
lists that as the last child. -/
theorem attached_attachTo (hg : g.Indexed)
    (hparent : parent < g.size) (v : Bytes) :
    Attached g parent v (g.attachTo parent v).1 (g.attachTo parent v).2.1
      (g.attachTo parent v).2.2 := by
  have hasked :
      Asked g v (g.getOrAdd v).1 (g.getOrAdd v).2.1 (g.getOrAdd v).2.2 :=
    asked_getOrAdd hg v
  unfold attachTo
  generalize g.getOrAdd v = asked at hasked
  obtain ⟨h, i, added⟩ := asked
  dsimp only at hasked ⊢
  have hkeep :
      ∀ n : Node, ({ n with children := n.children.push i } : Node).value =
        n.value :=
    fun _ => rfl
  have hlt : parent < h.size := Nat.lt_of_lt_of_le hparent hasked.le_size
  refine ⟨hasked.indexed.modify hkeep parent, hasked.pos, ?_, ?_, ?_,
    hasked.fresh, ?_, ?_, ?_⟩
  · rw [size_modify]
    exact hasked.lt
  · rw [valueAt_modify hkeep]
    exact hasked.value
  · rw [size_modify]
    exact hasked.place
  · intro j hj
    rw [valueAt_modify hkeep]
    exact hasked.valueAt j hj
  · rw [childrenAt_modify_self (·.push i) (fun _ => rfl) hlt, hasked.childrenAt]
  · intro j hj
    rw [childrenAt_modify_of_ne _ hj]
    exact hasked.childrenAt j

/-- No node is lost by attaching. -/
theorem Attached.le_size (ha : Attached g parent v h i added) :
    g.size ≤ h.size := by
  have hplace := ha.place
  split at hplace <;> omega

/-- A node from before is not the one that was made. The new one has
the number behind the last. -/
theorem Attached.ne_of_lt (ha : Attached g parent v h i added)
    (hadded : added = true)
    (hj : j < g.size) : j ≠ i := by
  have hplace := ha.place
  rw [if_pos hadded] at hplace
  omega

/-- Past the nodes from before there is the new one at most. That is
how statements about all nodes are carried over. -/
theorem Attached.eq_of_le (ha : Attached g parent v h i added)
    (hlt : j < h.size)
    (hle : g.size ≤ j) : added = true ∧ j = i := by
  have hplace := ha.place
  split at hplace
  · next hadded => exact ⟨hadded, by omega⟩
  · omega

/-- The parent's summands have one more at the end; no other node's
change. Every invariant of the expansion is derived from this. -/
theorem Attached.summands (ha : Attached g parent v h i added)
    (hrange : ∀ i, ∀ c ∈ g.childrenAt i, c < g.size) (j : Nat) :
    h.summands j = if j = parent then g.summands j ++
      [v] else g.summands j := by
  have hkeep : (g.childrenAt j).toList.map h.valueAt = g.summands j := by
    refine List.map_congr_left ?_
    intro c hc
    exact ha.valueAt c (hrange j c (Array.mem_toList_iff.1 hc))
  by_cases hj : j = parent
  · subst hj
    rw [if_pos rfl]
    unfold Graph.summands at hkeep ⊢
    rw [ha.children, Array.toList_push, List.map_append, hkeep,
      List.map_singleton, ha.value]
  · rw [if_neg hj]
    unfold Graph.summands at hkeep ⊢
    rw [ha.others j hj, hkeep]

end XorSpan.Graph
