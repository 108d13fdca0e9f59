/-
What a sequence of calls makes of a graph. A call asks for its value
before it looks at its parent, so it counts at the node of the value, and
makes that node if there is none, whether it names a parent or not. The
graph is therefore told by the calls: the nodes below the root are the
values asked for, each once, used as often as they were asked for, and
the children of a node are what was attached to it, in the order of the
calls (`script_outcome`).

The induction is on the calls, from the last one back: `Told` says it of
the graph so far, and one more call keeps it (`Told.edit`). Nothing is
assumed of the parents: a node may be attached to itself, to a node made
by the same call, to one counted from the end, or to none.
-/
import Mathlib.Data.List.Induction
import XorSpan.Proofs.Graph.Edits
import XorSpan.Proofs.Graph.Usage

namespace XorSpan.Graph

variable {g h : Graph} {root v : Bytes} {edits : List Edit}
    {number : Int} {i p : Nat}

/-- The value that a call asks for. -/
def Edit.value : Edit → Bytes
  | .getOrAdd v => v
  | .attach _ v => v

/-- A number stands for a node: for the one that it numbers, or, below
zero, for the one that it counts from the end. -/
def Stands (g : Graph) (number : Int) (p : Nat) : Prop :=
  p < g.size ∧ (number = p ∨ number + g.size = p)

instance (g : Graph) (number : Int) (p : Nat) :
    Decidable (g.Stands number p) := by
  unfold Stands
  infer_instance

/-- What a call attaches to `p`: the node of its answer, if it has one
and its parent stands for `p`. -/
def adopted (g : Graph) (p : Nat) (e : Edit) : List Nat :=
  match e, (g.edit e).2 with
  | .attach number _, .ok (i, _) =>
    if (g.edit e).1.Stands number p then [i] else []
  | _, _ => []

/-- What calls attach to `p`, one after the other. -/
def attachedTo (g : Graph) (p : Nat) : List Edit → List Nat
  | [] => []
  | e :: edits => g.adopted p e ++ (g.edit e).1.attachedTo p edits

/-- Calls made after others are made on what those have left. -/
theorem editAll_append (g : Graph) (edits more : List Edit) :
    g.editAll (edits ++ more) = (g.editAll edits).editAll more :=
  List.foldl_append

/-- What is attached to a node by calls and more calls: by the first
ones, and by the others where they find the graph. -/
theorem attachedTo_append (g : Graph) (p : Nat) (edits more : List Edit) :
    g.attachedTo p (edits ++ more) =
      g.attachedTo p edits ++ (g.editAll edits).attachedTo p more := by
  induction edits generalizing g with
  | nil => rfl
  | cons e edits ih =>
    rw [List.cons_append, attachedTo, attachedTo, ih, List.append_assoc]
    rfl

-- ================================================================ parents

/-- Looking a number up gives the place where it stands, counted from
the end if it is negative. -/
theorem locate_eq_some_iff : g.locate number = some p ↔ g.Stands number p := by
  unfold locate Stands
  dsimp only
  by_cases hnumber : number < 0
  · rw [if_pos hnumber]
    split
    · rw [Option.some_inj]
      omega
    · refine iff_of_false (fun h => nomatch h) ?_
      omega
  · rw [if_neg hnumber]
    split
    · rw [Option.some_inj]
      omega
    · refine iff_of_false (fun h => nomatch h) ?_
      omega

/-- A number stands for one node at most. A negative number and one
that is not may stand for the same node. -/
theorem Stands.unique {q : Nat} (hp : g.Stands number p)
    (hq : g.Stands number q) : p = q := by
  rw [← locate_eq_some_iff] at hp hq
  rw [hp] at hq
  exact Option.some.inj hq

/-- A value is attached once it has been asked for. The parent is
looked up afterwards, so a value can be attached to its own new node. -/
theorem attach_of_stands (hp : (g.getOrAdd v).1.Stands number p) :
    g.attach number v =
      ((g.getOrAdd v).1.modify p fun n => { n with
        children := n.children.push (g.getOrAdd v).2.1 },
        .ok (g.getOrAdd v).2) := by
  unfold attach
  rw [← locate_eq_some_iff] at hp
  dsimp only
  rw [hp]

/-- A call without a parent leaves what asking for its value leaves.
It is an error, but not one without effect. -/
theorem attach_of_not_stands (hnone : ¬∃ p, (g.getOrAdd v).1.Stands number p) :
    g.attach number v = ((g.getOrAdd v).1, .error (.noSuchNode number)) := by
  have hlocate : (g.getOrAdd v).1.locate number = none := by
    cases hp : (g.getOrAdd v).1.locate number with
    | none => rfl
    | some p => exact absurd ⟨p, locate_eq_some_iff.1 hp⟩ hnone
  unfold attach
  dsimp only
  rw [hlocate]

-- =============================================================== one call

/-- `h` is `g` with the value of a call asked for and, if the call
names a parent, attached. -/
structure Edited (g : Graph) (e : Edit) (h : Graph) : Prop where
  size : h.size = (g.getOrAdd e.value).1.size
  valueAt : ∀ j, h.valueAt j = (g.getOrAdd e.value).1.valueAt j
  usageAt : ∀ j, h.usageAt j = (g.getOrAdd e.value).1.usageAt j
  indexOf? : ∀ u, h.indexOf? u = (g.getOrAdd e.value).1.indexOf? u
  childrenAt : ∀ p, (h.childrenAt p).toList =
    ((g.getOrAdd e.value).1.childrenAt p).toList ++ g.adopted p e

/-- A call that asks for a value attaches nothing. -/
theorem edited_getOrAdd (g : Graph) (v : Bytes) :
    Edited g (.getOrAdd v) (g.edit (.getOrAdd v)).1 where
  size := rfl
  valueAt _ := rfl
  usageAt _ := rfl
  indexOf? _ := rfl
  childrenAt _ := (List.append_nil _).symm

/-- A call that finds its parent attaches the value to it. -/
theorem edited_attach_of_stands (hp : (g.getOrAdd v).1.Stands number p) :
    Edited g (.attach number v) (g.edit (.attach number v)).1 := by
  have hedit : g.edit (.attach number v) = _ := attach_of_stands hp
  have hadopted : ∀ q, g.adopted q (.attach number v) =
      if q = p then [(g.getOrAdd v).2.1] else [] := by
    intro q
    unfold adopted
    rw [hedit]
    dsimp only
    refine if_congr ?_ rfl rfl
    unfold Stands at hp ⊢
    rw [size_modify]
    omega
  generalize (g.getOrAdd v).2.1 = i at hedit hadopted
  have hvalue : ∀ n : Node,
      ({ n with children := n.children.push i } : Node).value = n.value :=
    fun _ => rfl
  have husage : ∀ n : Node,
      ({ n with children := n.children.push i } : Node).usage = n.usage :=
    fun _ => rfl
  rw [hedit]
  refine ⟨size_modify .., valueAt_modify hvalue p, usageAt_modify husage p,
    fun _ => rfl, ?_⟩
  intro q
  rw [hadopted]
  by_cases hq : q = p
  · rw [hq, if_pos rfl, childrenAt_modify_self (·.push i) (fun _ => rfl) hp.1,
      Array.toList_push]
    rfl
  · rw [if_neg hq, childrenAt_modify_of_ne _ hq, List.append_nil]
    rfl

/-- A call that does not find its parent fails, and still has asked
for the value: the node is there, and counted. -/
theorem edited_attach_of_not_stands
    (hnone : ¬∃ p, (g.getOrAdd v).1.Stands number p) :
    Edited g (.attach number v) (g.edit (.attach number v)).1 := by
  have hedit : g.edit (.attach number v) = _ := attach_of_not_stands hnone
  have hadopted : ∀ p, g.adopted p (.attach number v) = [] := by
    intro p
    unfold adopted
    rw [hedit]
  rw [hedit]
  refine ⟨rfl, fun _ => rfl, fun _ => rfl, fun _ => rfl, ?_⟩
  intro p
  rw [hadopted, List.append_nil]
  rfl

/-- So every call is one of these, and there is one account of what it
does. -/
theorem edited (g : Graph) (e : Edit) : Edited g e (g.edit e).1 := by
  cases e with
  | getOrAdd v => exact edited_getOrAdd g v
  | attach number v =>
    by_cases hp : ∃ p, (g.getOrAdd v).1.Stands number p
    · obtain ⟨p, hp⟩ := hp
      exact edited_attach_of_stands hp
    · exact edited_attach_of_not_stands hp

/-- Numbers are given for good. No call removes a node or changes its
value. -/
theorem keeps_edit (hg : g.Indexed) (e : Edit) :
    g.size ≤ (g.edit e).1.size ∧
    ∀ j < g.size, (g.edit e).1.valueAt j = g.valueAt j := by
  have hasked := asked_getOrAdd hg e.value
  have hedited := edited g e
  constructor
  · rw [hedited.size]
    exact hasked.le_size
  · intro j hj
    rw [hedited.valueAt]
    exact hasked.valueAt j hj

/-- Numbers stay given through any number of calls. -/
theorem Made.keeps_editAll (hg : Made g) (edits : List Edit) :
    g.size ≤ (g.editAll edits).size ∧
    ∀ j < g.size, (g.editAll edits).valueAt j = g.valueAt j := by
  induction edits generalizing g with
  | nil => exact ⟨Nat.le_refl _, fun _ _ => rfl⟩
  | cons e edits ih =>
    obtain ⟨hsize, hvalue⟩ := keeps_edit hg.indexed e
    obtain ⟨hsize', hvalue'⟩ := ih (hg.edit e)
    refine ⟨Nat.le_trans hsize hsize', ?_⟩
    intro j hj
    exact (hvalue' j (Nat.lt_of_lt_of_le hj hsize)).trans (hvalue j hj)

-- ============================================================== all calls

/-- The graph is what calls make of a root. -/
structure Told (root : Bytes) (edits : List Edit) (g : Graph) : Prop where
  made : Made g
  rootValue : g.valueAt 0 = root
  /-- The root was never asked for, any other node as often as its value. -/
  usage : ∀ i < g.size, g.usageAt i =
    if i = 0 then 1 else (edits.map Edit.value).count (g.valueAt i)
  asked : ∀ v, (g.indexOf? v).isSome ↔ v ∈ edits.map Edit.value
  children : ∀ p, (g.childrenAt p).toList = (ofRoot root).attachedTo p edits

/-- A fresh graph is the record of no calls. The root counts as
referred to once, by nobody. -/
theorem told_ofRoot (root : Bytes) : Told root [] (ofRoot root) where
  made := made_ofRoot root
  rootValue := rfl
  usage i hi := by
    have hroot : i = 0 := Nat.lt_one_iff.1 hi
    subst hroot
    rfl
  asked v := by
    have hnone : (ofRoot root).indexOf? v = none := Std.HashMap.getElem?_empty
    rw [hnone]
    exact iff_of_false Bool.false_ne_true List.not_mem_nil
  children p := by cases p <;> rfl

/-- Asking for a value counts once more at its node. That is whether
or not it was there, and at no other. -/
theorem Told.usage_getOrAdd (hg : Told root edits g) (v : Bytes)
    (hi : i < (g.getOrAdd v).1.size) :
    (g.getOrAdd v).1.usageAt i =
      if i = 0 then 1
      else (edits.map Edit.value ++ [v]).count
        ((g.getOrAdd v).1.valueAt i) := by
  have hasked := asked_getOrAdd hg.made.indexed v
  have husage := usageAt_getOrAdd hg.made.indexed v i
  generalize g.getOrAdd v = asked at hasked husage hi
  obtain ⟨h, k, added⟩ := asked
  dsimp only at hasked husage hi ⊢
  -- a node below the root is the one asked for exactly if it has the value
  have hsame : 0 < i → (i = k ↔ v = h.valueAt i) := by
    intro hpos
    constructor
    · intro heq
      rw [heq, hasked.value]
    · intro heq
      exact hasked.indexed.inj ⟨hpos, hi⟩ ⟨hasked.pos, hasked.lt⟩
        (by rw [hasked.value, heq])
  rw [husage]
  by_cases hroot : i = 0
  · have hk : ¬i = k := by
      have hpos := hasked.pos
      omega
    rw [if_pos hroot, if_neg hk, hg.usage i (hroot ▸ g.nonempty), if_pos hroot]
  · have hpos : 0 < i := Nat.pos_of_ne_zero hroot
    rw [if_neg hroot, List.count_append, List.count_singleton]
    by_cases hold : i < g.size
    · rw [hasked.valueAt i hold, hg.usage i hold, if_neg hroot,
        ← hasked.valueAt i hold]
      simp only [hsame hpos, beq_iff_eq]
    · -- a new node: its value had none before, so it was not asked for
      obtain ⟨hadded, hik⟩ : added = true ∧ i = k := by
        have hplace := hasked.place
        split at hplace
        · next hadded => exact ⟨hadded, by omega⟩
        · omega
      have hnone : g.usageAt i = 0 := by
        unfold usageAt
        rw [Array.getElem?_eq_none (Nat.not_lt.1 hold)]
        rfl
      have hunasked : v ∉ edits.map Edit.value := by
        rw [← hg.asked, hasked.fresh hadded]
        exact Bool.false_ne_true
      have hvalue : v = h.valueAt i := (hsame hpos).1 hik
      rw [hnone, if_pos hik, ← hvalue, List.count_eq_zero.2 hunasked,
        if_pos (beq_self_eq_true v)]

/-- After a call its value has a node, and no other value gets one. So
which values have nodes is told by the calls. -/
theorem isSome_indexOf?_getOrAdd (g : Graph) (v u : Bytes) :
    ((g.getOrAdd v).1.indexOf? u).isSome ↔ (g.indexOf? u).isSome ∨ u = v := by
  unfold getOrAdd
  cases hv : g.indexOf? v with
  | some i =>
    show (g.indexOf? u).isSome ↔ _
    refine (or_iff_left_of_imp ?_).symm
    intro heq
    rw [heq, hv]
    rfl
  | none =>
    show ((g.add v).indexOf? u).isSome ↔ _
    rw [indexOf?_add]
    by_cases hvu : v = u
    · rw [if_pos hvu]
      exact iff_of_true rfl (.inr hvu.symm)
    · rw [if_neg hvu]
      exact (or_iff_left (Ne.symm hvu)).symm

/-- One more call. It is added at the end of the script, and one
clause of the record after the other is carried over. -/
theorem Told.edit (hg : Told root edits g)
    (hrun : g = (ofRoot root).editAll edits) (e : Edit) :
    Told root (edits ++ [e]) (g.edit e).1 := by
  have hasked := asked_getOrAdd hg.made.indexed e.value
  have hedited := edited g e
  refine ⟨hg.made.edit e, ?_, ?_, ?_, ?_⟩
  · rw [hedited.valueAt, hasked.valueAt 0 g.nonempty, hg.rootValue]
  · intro i hi
    rw [hedited.size] at hi
    rw [hedited.usageAt, hedited.valueAt, List.map_append]
    exact hg.usage_getOrAdd e.value hi
  · intro u
    rw [hedited.indexOf?, isSome_indexOf?_getOrAdd, hg.asked, List.map_append,
      List.mem_append, List.map_singleton, List.mem_singleton]
  · intro p
    rw [hedited.childrenAt, hasked.childrenAt, hg.children, attachedTo_append,
      ← hrun, attachedTo, attachedTo, List.append_nil]

/-- So whatever calls are made, the graph tells of them what there is
to tell. The induction is from the last call back, as the account of a
call is given in terms of those before it. -/
theorem told_editAll (root : Bytes) (edits : List Edit) :
    Told root edits ((ofRoot root).editAll edits) := by
  induction edits using List.reverseRecOn with
  | nil => exact told_ofRoot root
  | append_singleton edits e ih =>
    rw [editAll_append]
    exact ih.edit rfl e

-- ================================================================ outcome

/-- What a graph is after calls. -/
structure IsRecord (root : Bytes) (edits : List Edit) (g : Graph) : Prop where
  rootValue : g.valueAt 0 = root
  rootUsage : g.usageAt 0 = 1
  /-- Below the root no value has two nodes. -/
  unique : ∀ i j, 1 ≤ i → i < g.size → 1 ≤ j → j < g.size →
    g.valueAt i = g.valueAt j → i = j
  /-- The index finds the nodes below the root, and never the root. -/
  found : ∀ v i, g.indexOf? v = some i ↔ 1 ≤ i ∧ i < g.size ∧ g.valueAt i = v
  /-- Values have nodes exactly if they were asked for. -/
  asked : ∀ v, (∃ i, g.indexOf? v = some i) ↔ v ∈ edits.map Edit.value
  range : ∀ p, ∀ c ∈ g.childrenAt p, c ≠ 0 ∧ c < g.size
  usage : ∀ i, 1 ≤ i → i < g.size →
    g.usageAt i = (edits.map Edit.value).count (g.valueAt i)
  children : ∀ p, (g.childrenAt p).toList = (ofRoot root).attachedTo p edits

/-- What the next call that asks for `v` does. -/
structure Answered (edits : List Edit) (g : Graph) (v : Bytes) : Prop where
  /-- The answer is a node of the value, not the root, even if the value
  is the root's. -/
  node : 1 ≤ (g.getOrAdd v).2.1 ∧ (g.getOrAdd v).2.1 < (g.getOrAdd v).1.size ∧
    (g.getOrAdd v).1.valueAt (g.getOrAdd v).2.1 = v
  /-- It is new if the value was never asked for, and then it is the next
  one. -/
  added : (g.getOrAdd v).2.2 = true ↔ v ∉ edits.map Edit.value
  next : (g.getOrAdd v).2.2 = true → (g.getOrAdd v).2.1 = g.size
  /-- Attaching the value gives the same answer if there is a parent. -/
  parent : ∀ number, (∃ p, (g.getOrAdd v).1.Stands number p) →
    (g.attach number v).2 = .ok (g.getOrAdd v).2
  /-- If there is none it fails, and the value has been asked for all the
  same. -/
  orphan : ∀ number, (¬∃ p, (g.getOrAdd v).1.Stands number p) →
    g.attach number v = ((g.getOrAdd v).1, .error (.noSuchNode number))

/-- And what the next call is answered follows from the record alone.
The graph itself need not be known for it. -/
theorem Told.answered (hg : Told root edits g) (v : Bytes) :
    Answered edits g v := by
  have hasked := asked_getOrAdd hg.made.indexed v
  refine ⟨⟨hasked.pos, hasked.lt, hasked.value⟩, ?_, ?_, ?_, ?_⟩
  · rw [← hg.asked]
    constructor
    · intro hadded
      rw [hasked.fresh hadded]
      exact Bool.false_ne_true
    · intro hnone
      unfold getOrAdd
      rw [Option.not_isSome_iff_eq_none.1 hnone]
  · intro hadded
    have hplace := hasked.place
    rw [if_pos hadded] at hplace
    exact hplace.1
  · intro number ⟨p, hp⟩
    rw [attach_of_stands hp]
  · intro number hnone
    exact attach_of_not_stands hnone

/-- Whatever calls are made on a fresh graph, with whatever values and
parents, it is their record; the next call is answered by it, and no
later call changes the value of a node. -/
theorem script_outcome (root : Bytes) (edits : List Edit) :
    IsRecord root edits ((ofRoot root).editAll edits) ∧
    (∀ v, Answered edits ((ofRoot root).editAll edits) v) ∧
    ∀ more, ((ofRoot root).editAll edits).size ≤
      ((ofRoot root).editAll (edits ++ more)).size ∧
      ∀ i < ((ofRoot root).editAll edits).size,
        ((ofRoot root).editAll (edits ++ more)).valueAt i =
          ((ofRoot root).editAll edits).valueAt i := by
  have hg := told_editAll root edits
  refine ⟨?_, hg.answered, ?_⟩
  · generalize (ofRoot root).editAll edits = g at hg
    have hindexed := hg.made.indexed
    refine ⟨hg.rootValue, ?_, ?_, hindexed, ?_, ?_, ?_, hg.children⟩
    · rw [hg.usage 0 g.nonempty, if_pos rfl]
    · intro i j hposi hi hposj hj heq
      exact hindexed.inj ⟨hposi, hi⟩ ⟨hposj, hj⟩ heq
    · intro v
      rw [← Option.isSome_iff_exists]
      exact hg.asked v
    · intro p c hc
      obtain ⟨hpos, hlt⟩ := hg.made.range p c hc
      exact ⟨Nat.ne_of_gt hpos, hlt⟩
    · intro i hpos hi
      rw [hg.usage i hi, if_neg (Nat.ne_of_gt hpos)]
  · intro more
    rw [editAll_append]
    exact hg.made.keeps_editAll more

end XorSpan.Graph
