/-
What an expansion draws. `IsGraphOf` describes the graph of a solution:
one node to a value, the root with the computed values as its summands, a
pool member with none, and any other value with the operands of its
record. The expansion draws that graph, or it comes upon a value that is
needed and cannot be explained, and no third thing happens
(`scripted_graph`).

Between two steps, a node is explained or pending (`Sound`). The records
left are the right ones for every value whose node is still pending, if
it has one at all; so it does no harm that a record is gone once it is
used. In the middle of a step, one node is neither explained nor pending:
the one that values are being attached to.
-/
import XorSpan.Graph.Expansion
import XorSpan.Proofs.Graph.Arena
import XorSpan.Proofs.Graph.Paths
import XorSpan.Proofs.Jobs

namespace XorSpan

open XorSpan.Graph Relation

variable {s : Solution} {g h : Graph} {v : Bytes} {i j x : Nat}

-- ============================================================= the picture

namespace Solution

/-- The base of a solution is its pool without the zero values. -/
theorem contains_base : s.base.contains v = true ↔
    v ∈ s.pool ∧ v.isZero = false := by
  unfold base
  rw [Std.HashSet.contains_ofList]
  simp

/-- The values that the expansion comes by: the computed ones, and the
operands of the records of those that are not in the pool. -/
inductive Needed (s : Solution) : Bytes → Prop where
  | computed {v : Bytes} (hv : v ∈ s.computed) : Needed s v
  | left {v : Bytes} {r : Record} (hv : Needed s v) (hzero : v.isZero = false)
      (hpool : v ∉ s.pool)
      (hr : s.records.get? v = some r) : Needed s r.left
  | right {v : Bytes} {r : Record} (hv : Needed s v) (hzero : v.isZero = false)
      (hpool : v ∉ s.pool) (hr : s.records.get? v = some r) : Needed s r.right

/-- A node with all its summands: a nonzero pool member has none, any
other value the operands of its record. -/
structure Explained (s : Solution) (g : Graph) (i : Nat) : Prop where
  nonzero : (g.valueAt i).isZero = false
  source : (g.valueAt i ∈ s.pool ∧ g.summands i = []) ∨
    (g.valueAt i ∉ s.pool ∧ ∃ r, s.records.get? (g.valueAt i) = some r ∧
      g.summands i = [r.left, r.right])

/-- The graph of a solution. -/
structure IsGraphOf (s : Solution) (g : Graph) : Prop where
  indexed : g.Indexed
  target : g.valueAt 0 = s.target
  computed : g.summands 0 = s.computed
  range : ∀ i, ∀ c ∈ g.childrenAt i, 0 < c ∧ c < g.size
  explained : ∀ i, 0 < i → i < g.size → Explained s g i
  reached : ∀ i < g.size, ReflTransGen g.Child 0 i

/-- What drawing a graph can come to. -/
inductive Drawing (s : Solution) : Except Fault Graph → Prop where
  | drawn {g : Graph} (graph : IsGraphOf s g) : Drawing s (.ok g)
  | zero {v : Bytes} (needed : s.Needed v) (zero : v.isZero = true) :
      Drawing s (.error (.defect .walk .zeroValue))
  | orphan {v : Bytes} (needed : s.Needed v) (nonzero : v.isZero = false)
      (foreign : v ∉ s.pool)
      (unrecorded : s.records.get? v = none) :
      Drawing s (.error (.defect .walk (.orphan v)))

end Solution

open Solution

namespace Expansion

variable {e t : Expansion}

-- ============================================================ the invariant

/-- An expansion under way; `x` is the node that values are being
attached to, the root if there is none. -/
structure Sound (s : Solution) (x : Nat) (e : Expansion) : Prop where
  indexed : e.graph.Indexed
  target : e.graph.valueAt 0 = s.target
  range : ∀ i, ∀ c ∈ e.graph.childrenAt i, 0 < c ∧ c < e.graph.size
  nodup : e.pending.Nodup
  pending : ∀ i ∈ e.pending, 0 < i ∧ i < e.graph.size ∧ e.graph.summands i = []
  explained : ∀ i, 0 < i → i < e.graph.size → i ∉ e.pending → i ≠ x →
    Explained s e.graph i
  needed : ∀ i, 0 < i → i < e.graph.size → s.Needed (e.graph.valueAt i)
  unspent : ∀ v, (∀ i, 0 < i → i < e.graph.size → e.graph.valueAt i = v →
    i ∈ e.pending) →
    e.unspent[v]? = s.records.get? v
  reached : ∀ i < e.graph.size, ReflTransGen e.graph.Child 0 i

/-- Children are nodes of the graph. -/
theorem Sound.lt_of_child (he : Sound s x e) :
    ∀ i, ∀ c ∈ e.graph.childrenAt i, c < e.graph.size :=
  fun i c hc => (he.range i c hc).2

/-- A root alone has no summands. -/
theorem summands_ofRoot (value : Bytes) (i : Nat) :
    (Graph.ofRoot value).summands i = [] := by
  unfold summands childrenAt Graph.ofRoot
  cases i with
  | zero => rfl
  | succ i => rfl

/-- At first there is the root, with nothing pending and nothing
explained. -/
theorem sound_initial (s : Solution) : Sound s 0 (initial s) := by
  have hsize : (initial s).graph.size = 1 := rfl
  have hchildren : ∀ i, (initial s).graph.childrenAt i = #[] := by
    intro i
    have h := summands_ofRoot s.target i
    unfold summands at h
    rw [List.map_eq_nil_iff, Array.toList_eq_nil_iff] at h
    exact h
  refine ⟨?_, rfl, ?_, List.nodup_nil, ?_, ?_, ?_, ?_, ?_⟩
  · intro v i
    have hnone : (initial s).graph.indexOf? v = none := by
      unfold initial Graph.ofRoot indexOf?
      simp
    rw [hnone, hsize]
    constructor
    · intro h
      cases h
    · intro hall
      obtain ⟨hpos, hlt, -⟩ := hall
      omega
  · intro i c hc
    rw [hchildren] at hc
    simp at hc
  · intro i hi
    cases hi
  · intro i hpos hlt
    rw [hsize] at hlt
    omega
  · intro i hpos hlt
    rw [hsize] at hlt
    omega
  · intro v _
    rfl
  · intro i hlt
    rw [hsize] at hlt
    rw [Nat.lt_one_iff.1 hlt]

-- =============================================================== attaching

/-- An explanation is still one when values are attached elsewhere.
The node's own children are as they were, and so are their values. -/
theorem explained_of_attached {added : Bool} (ha : Attached g x v h i added)
    (hrange : ∀ i, ∀ c ∈ g.childrenAt i, c < g.size)
    (hj : j < g.size) (hne : j ≠ x)
    (hexplained : Explained s g j) : Explained s h j := by
  have hvalue : h.valueAt j = g.valueAt j := ha.valueAt j hj
  have hsummands : h.summands j = g.summands j := by
    rw [ha.summands hrange, if_neg hne]
  constructor
  · rw [hvalue]
    exact hexplained.nonzero
  · rw [hvalue, hsummands]
    exact hexplained.source

/-- Attaching takes no child away. The new one stands behind the
others. -/
theorem child_of_attached {added : Bool}
    (ha : Attached g x v h i added) {a b : Nat}
    (hab : g.Child a b) : h.Child a b := by
  unfold Child at hab ⊢
  by_cases hax : a = x
  · subst hax
    rw [ha.children]
    exact Array.mem_push.2 (.inl hab)
  · rw [ha.others a hax]
    exact hab

/-- `t` is `e` with `v` attached to `x`, and everything still in
order. -/
structure Grown (s : Solution) (x : Nat) (v : Bytes)
    (e t : Expansion) : Prop where
  sound : Sound s x t
  summands : ∀ j, t.graph.summands j =
    if j = x then e.graph.summands j ++ [v] else e.graph.summands j
  valueAt : ∀ j < e.graph.size, t.graph.valueAt j = e.graph.valueAt j
  le_size : e.graph.size ≤ t.graph.size
  free : x ∉ t.pending

/-- Attaching a value that is needed to a node that is not pending
keeps everything in order. -/
theorem Sound.attach (he : Sound s x e) (hx : x < e.graph.size)
    (hfree : x ∉ e.pending)
    (hv : s.Needed v) : Grown s x v e (e.attach x v) := by
  have ha :
      Attached e.graph x v (e.graph.attachTo x v).1 (e.graph.attachTo x v).2.1
      (e.graph.attachTo x v).2.2 := attached_attachTo he.indexed hx v
  unfold Expansion.attach
  generalize e.graph.attachTo x v = attached at ha
  obtain ⟨h, i, added⟩ := attached
  dsimp only at ha ⊢
  have hsummands := ha.summands he.lt_of_child
  have hmem : ∀ j, j ∈ (if added then i :: e.pending else e.pending) ↔
      (added = true ∧ j = i) ∨ j ∈ e.pending := by
    intro j
    cases added <;> simp
  have hfresh : added = true → i ∉ e.pending := fun hadded hi =>
    ha.ne_of_lt hadded (he.pending i hi).2.1 rfl
  have hold : ∀ j, j < h.size → j < e.graph.size ∨ (added = true ∧ j = i) := by
    intro j hj
    rcases Nat.lt_or_ge j e.graph.size with hlt | hle
    · exact .inl hlt
    · exact .inr (ha.eq_of_le hj hle)
  refine ⟨⟨ha.indexed, ?_, ?_, ?_, ?_, ?_, ?_, ?_, ?_⟩, hsummands,
    ha.valueAt, ha.le_size, ?_⟩
  · rw [ha.valueAt 0 e.graph.nonempty]
    exact he.target
  · intro j c hc
    by_cases hj : j = x
    · subst hj
      rw [ha.children] at hc
      rcases Array.mem_push.1 hc with hc | rfl
      · exact ⟨(he.range j c hc).1,
          Nat.lt_of_lt_of_le (he.range j c hc).2 ha.le_size⟩
      · exact ⟨ha.pos, ha.lt⟩
    · rw [ha.others j hj] at hc
      exact ⟨(he.range j c hc).1,
        Nat.lt_of_lt_of_le (he.range j c hc).2 ha.le_size⟩
  · split
    · next hadded => exact List.nodup_cons.2 ⟨hfresh hadded, he.nodup⟩
    · exact he.nodup
  · intro j hj
    rcases (hmem j).1 hj with ⟨hadded, rfl⟩ | hj
    · have hplace := ha.place
      rw [if_pos hadded] at hplace
      have hne : j ≠ x := Ne.symm (ha.ne_of_lt hadded hx)
      refine ⟨ha.pos, ha.lt, ?_⟩
      rw [hsummands, if_neg hne]
      unfold summands
      rw [childrenAt_of_le (Nat.le_of_eq hplace.1.symm)]
      rfl
    · obtain ⟨hpos, hlt, hnone⟩ := he.pending j hj
      have hne : j ≠ x := fun heq => hfree (heq ▸ hj)
      refine ⟨hpos, Nat.lt_of_lt_of_le hlt ha.le_size, ?_⟩
      rw [hsummands, if_neg hne]
      exact hnone
  · intro j hpos hj hnot hne
    have hlt : j < e.graph.size :=
      (hold j hj).resolve_right fun hnew => hnot ((hmem j).2 (.inl hnew))
    exact explained_of_attached ha he.lt_of_child hlt hne
      (he.explained j hpos hlt (fun hj => hnot ((hmem j).2 (.inr hj))) hne)
  · intro j hpos hj
    rcases hold j hj with hlt | ⟨-, rfl⟩
    · rw [ha.valueAt j hlt]
      exact he.needed j hpos hlt
    · rw [ha.value]
      exact hv
  · intro u hu
    refine he.unspent u ?_
    intro j hpos hlt hvalue
    have hj : j ∈ (if added then i :: e.pending else e.pending) :=
      hu j hpos (Nat.lt_of_lt_of_le hlt ha.le_size)
        (by rw [ha.valueAt j hlt, hvalue])
    rcases (hmem j).1 hj with ⟨hadded, heq⟩ | hj
    · exact absurd heq (ha.ne_of_lt hadded hlt)
    · exact hj
  · have hle : e.graph.Child ≤ h.Child := fun _ _ => child_of_attached ha
    have hmono : ∀ {j}, ReflTransGen e.graph.Child 0 j →
        ReflTransGen h.Child 0 j :=
      fun hj => ReflTransGen.mono hle _ _ hj
    intro j hj
    rcases hold j hj with hlt | ⟨-, rfl⟩
    · exact hmono (he.reached j hlt)
    · refine (hmono (he.reached x hx)).tail ?_
      unfold Child
      rw [ha.children]
      exact Array.mem_push_self
  · intro hmem'
    rcases (hmem x).1 hmem' with ⟨hadded, heq⟩ | hmem'
    · exact ha.ne_of_lt hadded hx heq
    · exact hfree hmem'

-- ================================================================= seeding

/-- The root gets the computed values, in their order. They are
pending then, each once, and the target is one of them if it is among
the values: the root is not found by its value. -/
theorem sound_seeded (s : Solution) :
    Sound s 0 (s.computed.foldl (·.attach 0 ·) (initial s)) ∧
      (s.computed.foldl (·.attach 0 ·) (initial s)).graph.summands 0 =
        s.computed := by
  have hseed : ∀ (values : List Bytes) (e : Expansion),
      (∀ v ∈ values, s.Needed v) →
      Sound s 0 e → Sound s 0 (values.foldl (·.attach 0 ·) e) ∧
        (values.foldl (·.attach 0 ·) e).graph.summands 0 =
          e.graph.summands 0 ++ values := by
    intro values
    induction values with
    | nil =>
      intro e _ he
      exact ⟨he, (List.append_nil _).symm⟩
    | cons v values ih =>
      intro e hvalues he
      obtain ⟨hv, hvalues⟩ := List.forall_mem_cons.1 hvalues
      have hroot : 0 ∉ e.pending := fun h => Nat.lt_irrefl 0 (he.pending 0 h).1
      have hgrown : Grown s 0 v e (e.attach 0 v) :=
        he.attach e.graph.nonempty hroot hv
      obtain ⟨hsound, heq⟩ := ih (e.attach 0 v) hvalues hgrown.sound
      refine ⟨hsound, ?_⟩
      rw [List.foldl_cons, heq, hgrown.summands, if_pos rfl, List.append_assoc]
      rfl
  obtain ⟨hsound, heq⟩ := hseed s.computed (initial s)
    (fun v hv => .computed hv) (sound_initial s)
  refine ⟨hsound, heq.trans ?_⟩
  rw [show (initial s).graph.summands 0 = [] from summands_ofRoot s.target 0]
  rfl

-- =================================================================== steps

/-- The node taken up next is one of those that are pending. -/
theorem mem_pending {pending : List Nat} (hp : e.pending = i :: pending) :
    i ∈ e.pending := by
  rw [hp]
  exact List.mem_cons_self ..

/-- The node taken up next, and the record for its value. Records are
used up on the way, but only those of values that have been taken up. -/
theorem Sound.unspent_head {pending : List Nat} (he : Sound s 0 e)
    (hp : e.pending = i :: pending) :
    e.unspent[e.graph.valueAt i]? = s.records.get? (e.graph.valueAt i) := by
  have hi : i ∈ e.pending := mem_pending hp
  obtain ⟨hpos, hlt, -⟩ := he.pending i hi
  refine he.unspent _ ?_
  intro j hposj hltj hvalue
  rw [he.indexed.inj ⟨hposj, hltj⟩ ⟨hpos, hlt⟩ hvalue]
  exact hi

/-- A node taken from those pending is being worked on. Its record is
used up with it. -/
theorem Sound.take {pending : List Nat} (he : Sound s 0 e)
    (hp : e.pending = i :: pending) :
    Sound s i { e with
      pending, unspent := e.unspent.erase (e.graph.valueAt i) } := by
  have hpending := he.pending
  have hnodup := he.nodup
  have hexplained := he.explained
  have hunspent := he.unspent
  rw [hp] at hpending hnodup hexplained hunspent
  obtain ⟨hi, hnodup⟩ := List.nodup_cons.1 hnodup
  obtain ⟨hpos, hlt, -⟩ := hpending i (List.mem_cons_self ..)
  refine ⟨he.indexed, he.target, he.range, hnodup, ?_, ?_,
    he.needed, ?_, he.reached⟩
  · intro j hj
    exact hpending j (List.mem_cons_of_mem _ hj)
  · intro j hposj hltj hnot hne
    refine hexplained j hposj hltj ?_ (Nat.ne_of_gt hposj)
    intro hj
    rcases List.mem_cons.1 hj with heq | hj
    · exact hne heq
    · exact hnot hj
  · intro v hv
    have hne : ¬e.graph.valueAt i = v := fun heq => hi (hv i hpos hlt heq)
    rw [Std.HashMap.getElem?_erase, if_neg (by simpa using hne)]
    refine hunspent v ?_
    intro j hposj hltj hvalue
    exact List.mem_cons_of_mem _ (hv j hposj hltj hvalue)

/-- Once it is explained, nothing is being worked on. It is an
explained node like any other then. -/
theorem Sound.finish (he : Sound s i e) (hi : Explained s e.graph i) :
    Sound s 0 e := by
  refine { he with explained := ?_ }
  intro j hpos hlt hnot _
  by_cases hj : j = i
  · rw [hj]
    exact hi
  · exact he.explained j hpos hlt hnot hj

/-- A pool member is explained as it is. It becomes a leaf, so its
record stays unused if it has one. -/
theorem Sound.keep {pending : List Nat} (he : Sound s 0 e)
    (hp : e.pending = i :: pending)
    (hmember : e.graph.valueAt i ∈ s.pool ∧
      (e.graph.valueAt i).isZero = false) :
    Sound s 0 { e with pending } := by
  have hi : i ∈ e.pending := mem_pending hp
  have htake : Sound s i { e with
      pending, unspent := e.unspent.erase (e.graph.valueAt i) } :=
    he.take hp
  have hdone : Sound s 0 { e with
      pending, unspent := e.unspent.erase (e.graph.valueAt i) } :=
    htake.finish ⟨hmember.2, .inl ⟨hmember.1, (he.pending i hi).2.2⟩⟩
  refine { hdone with unspent := ?_ }
  intro v hv
  refine he.unspent v ?_
  intro j hpos hlt hvalue
  rw [hp]
  exact List.mem_cons_of_mem _ (hv j hpos hlt hvalue)

/-- Any other value is explained by the operands of its record. They
are attached one after the other, and what is new among them is
pending. -/
theorem Sound.explain {pending : List Nat} {r : Record} (he : Sound s 0 e)
    (hp : e.pending = i :: pending) (hzero : (e.graph.valueAt i).isZero = false)
    (hpool : e.graph.valueAt i ∉ s.pool)
    (hr : s.records.get? (e.graph.valueAt i) = some r)
    (htaken : t = { e with
      pending, unspent := e.unspent.erase (e.graph.valueAt i) }) :
    Sound s 0 ((t.attach i r.left).attach i r.right) ∧
      ((t.attach i r.left).attach i r.right).graph.summands 0 =
        e.graph.summands 0 := by
  have hi : i ∈ e.pending := mem_pending hp
  obtain ⟨hpos, hlt, hnone⟩ := he.pending i hi
  have hneeded : s.Needed (e.graph.valueAt i) := he.needed i hpos hlt
  have htake : Sound s i t := htaken ▸ he.take hp
  have hgraph : t.graph = e.graph := by rw [htaken]
  have hfree : i ∉ t.pending := by
    have hnodup := he.nodup
    rw [hp] at hnodup
    rw [htaken]
    exact (List.nodup_cons.1 hnodup).1
  rw [← hgraph] at hlt hnone hneeded hzero hpool hr ⊢
  have hleft : Grown s i r.left t (t.attach i r.left) :=
    htake.attach hlt hfree (hneeded.left hzero hpool hr)
  have hlt' : i < (t.attach i r.left).graph.size :=
    Nat.lt_of_lt_of_le hlt hleft.le_size
  have hright : Grown s i r.right (t.attach i r.left)
      ((t.attach i r.left).attach i r.right) :=
    hleft.sound.attach hlt' hleft.free (hneeded.right hzero hpool hr)
  have hvalue : ((t.attach i r.left).attach i r.right).graph.valueAt i =
      t.graph.valueAt i := by
    rw [hright.valueAt i hlt', hleft.valueAt i hlt]
  constructor
  · refine hright.sound.finish ⟨by rw [hvalue]; exact hzero, .inr ?_⟩
    rw [hvalue]
    refine ⟨hpool, r, hr, ?_⟩
    rw [hright.summands, if_pos rfl, hleft.summands, if_pos rfl, hnone]
    rfl
  · have hne : 0 ≠ i := Nat.ne_of_lt hpos
    rw [hright.summands, if_neg hne, hleft.summands, if_neg hne]

/-- A step takes up a node, and leaves it as a leaf or with the
operands of its record attached. What was sound stays so, and the root
keeps its summands. -/
theorem Sound.step {lines : List String} (he : Sound s 0 e)
    (hstep : e.step s.base = .move t lines) :
    Sound s 0 t ∧ t.graph.summands 0 = e.graph.summands 0 := by
  unfold Expansion.step at hstep
  split at hstep
  · cases hstep
  · next i pending hp =>
    dsimp only at hstep
    split at hstep
    · cases hstep
    · next hzero =>
      rw [Bool.not_eq_true] at hzero
      split at hstep
      · next hbase =>
        cases hstep
        exact ⟨he.keep hp (contains_base.1 hbase), rfl⟩
      · next hbase =>
        have hpool : e.graph.valueAt i ∉ s.pool :=
          fun h => hbase (contains_base.2 ⟨h, hzero⟩)
        split at hstep
        · cases hstep
        · next r hr =>
          rw [he.unspent_head hp] at hr
          cases hstep
          exact he.explain hp hzero hpool hr rfl

/-- A step fails only at a value that is needed and has no
explanation. It is zero, or neither a pool member nor the result of a
record. -/
theorem Sound.drawing_of_fail {fault : Fault} (he : Sound s 0 e)
    (hstep : e.step s.base = .fail fault) : Drawing s (.error fault) := by
  unfold Expansion.step at hstep
  split at hstep
  · cases hstep
  · next i pending hp =>
    have hi : i ∈ e.pending := mem_pending hp
    obtain ⟨hpos, hlt, -⟩ := he.pending i hi
    have hneeded : s.Needed (e.graph.valueAt i) := he.needed i hpos hlt
    dsimp only at hstep
    split at hstep
    · next hzero =>
      cases hstep
      exact .zero hneeded hzero
    · next hzero =>
      rw [Bool.not_eq_true] at hzero
      split at hstep
      · cases hstep
      · next hbase =>
        have hpool : e.graph.valueAt i ∉ s.pool :=
          fun h => hbase (contains_base.2 ⟨h, hzero⟩)
        split at hstep
        · next hr =>
          rw [he.unspent_head hp] at hr
          cases hstep
          exact .orphan hneeded hzero hpool hr
        · cases hstep

/-- The walk rests when nothing is pending, and only then. -/
theorem pending_eq_nil_of_rest {base : Std.HashSet Bytes}
    (h : e.step base = .rest t) :
    e.pending = [] ∧ t = e := by
  unfold Expansion.step at h
  split at h
  · next hp =>
    cases h
    exact ⟨hp, rfl⟩
  · dsimp only at h
    split at h
    · cases h
    · split at h
      · cases h
      · split at h <;> cases h

/-- With nothing pending the graph is done. Every node has been taken
up and was explained. -/
theorem Sound.isGraphOf (he : Sound s 0 e)
    (hroot : e.graph.summands 0 = s.computed)
    (hp : e.pending = []) : IsGraphOf s e.graph where
  indexed := he.indexed
  target := he.target
  computed := hroot
  range := he.range
  explained i hpos hlt :=
    he.explained i hpos hlt (by rw [hp]; exact List.not_mem_nil)
      (Nat.ne_of_gt hpos)
  reached := he.reached

end Expansion

namespace Solution

-- ======================================================= reading a picture

variable {c : Nat}

/-- The children of the root have the values that were computed. -/
theorem IsGraphOf.valueAt_of_root (hg : IsGraphOf s g) (hc : g.Child 0 c) :
    g.valueAt c ∈ s.computed := by
  rw [← hg.computed]
  exact List.mem_map_of_mem (Array.mem_toList_iff.2 hc)

/-- A node below the root that has a child is derived, and the child
is an operand of its record. -/
theorem IsGraphOf.valueAt_of_child (hg : IsGraphOf s g) (hi : 0 < i)
    (hc : g.Child i c) :
    g.valueAt i ∉ s.pool ∧ ∃ r, s.records.get? (g.valueAt i) = some r ∧
      (g.valueAt c = r.left ∨ g.valueAt c = r.right) := by
  have hmem : g.valueAt c ∈ g.summands i :=
    List.mem_map_of_mem (Array.mem_toList_iff.2 hc)
  rcases (hg.explained i hi (lt_of_mem_childrenAt hc)).source with
    ⟨-, hnone⟩ | ⟨hpool, r, hr, hsummands⟩
  · rw [hnone] at hmem
    cases hmem
  · refine ⟨hpool, r, hr, ?_⟩
    rw [hsummands] at hmem
    rcases List.mem_cons.1 hmem with heq | hmem
    · exact .inl heq
    · exact .inr (List.mem_singleton.1 hmem)

-- ================================================================ outcome

/-- The graph of a solution is that of the expansion at the end of its
walk. Attaching the computed values comes first, with a poll for each. -/
theorem scripted_graph_of_ends {r : Except Fault Expansion}
    (h : (Expansion.walk s.base).Ends
      (s.computed.foldl (·.attach 0 ·) (Expansion.initial s)) r) :
    Job.Scripted s.graph (r.map Expansion.graph) := by
  have hseed := Job.scripted_visit_ok .seed
    (fun (e : Expansion) value => e.attach 0 value)
    (Expansion.initial s) s.computed
  unfold graph
  cases r with
  | error fault => exact hseed.bind h.scripted_run.bind_error
  | ok t =>
    exact hseed.bind (h.scripted_run.bind
      ((Job.scripted_note _).bind (Job.scripted_pure _)))

/-- Drawing the graph of a solution comes to its graph, or to a value
that is needed and cannot be explained. -/
theorem scripted_graph (s : Solution) :
    ∃ r, Job.Scripted s.graph r ∧ Drawing s r := by
  obtain ⟨hseeded, hroot⟩ := Expansion.sound_seeded s
  obtain ⟨r, hends⟩ := (Expansion.walk s.base).exists_ends
    (s.computed.foldl (·.attach 0 ·) (Expansion.initial s))
  have hkeeps : ∀ {e t : Expansion} {lines : List String},
      Expansion.Sound s 0 e ∧ e.graph.summands 0 = s.computed →
      (Expansion.walk s.base).step e = .move t lines →
      Expansion.Sound s 0 t ∧ t.graph.summands 0 = s.computed := by
    intro e t lines ⟨he, hcomputed⟩ hstep
    obtain ⟨ht, heq⟩ := he.step hstep
    exact ⟨ht, heq.trans hcomputed⟩
  refine ⟨_, scripted_graph_of_ends hends, ?_⟩
  cases r with
  | error fault =>
    obtain ⟨e, ⟨he, -⟩, hfail⟩ := hends.keeps_fault hkeeps ⟨hseeded, hroot⟩
    exact he.drawing_of_fail hfail
  | ok t =>
    obtain ⟨e, ⟨he, hcomputed⟩, hrest⟩ := hends.keeps hkeeps ⟨hseeded, hroot⟩
    obtain ⟨hp, rfl⟩ := Expansion.pending_eq_nil_of_rest hrest
    exact .drawn (he.isGraphOf hcomputed hp)

/-- So is the outcome of drawing the graph, for any solution at all,
found or put together by hand. -/
theorem drawing (s : Solution) : Drawing s s.graph.outcome := by
  obtain ⟨r, hscript, hdrawing⟩ := scripted_graph s
  rw [hscript.outcome_eq]
  exact hdrawing

end Solution

end XorSpan
