/-
Usage. A node counts how often its value was asked for, and a value is
asked for to be attached somewhere. So each attachment adds one to the
count of a node and one to the places in which the node stands as a
child, and a graph that is only ever attached to has every node counted
as often as it is a child; the root, which nobody asked for, counts one
from the start (`Counted`, `counted_of_graph`).
-/
import Mathlib.Algebra.BigOperators.Group.Finset.Piecewise
import XorSpan.Proofs.Graph.Expansion

namespace XorSpan

variable {s : Solution} {g h : Graph} {v : Bytes} {i j parent : Nat}
    {f : Node → Node}

namespace Graph

/-- How often the value of a node was asked for. -/
def usageAt (g : Graph) (i : Nat) : Nat := (g.nodes[i]?.map Node.usage).getD 0

/-- How often a node stands in the lists of children. -/
def references (g : Graph) (i : Nat) : Nat :=
  ∑ j ∈ Finset.range g.size, (g.childrenAt j).count i

/-- A node was asked for as often as it is a child, the root once
more. -/
def Counted (g : Graph) : Prop :=
  ∀ i, g.usageAt i = g.references i + if i = 0 then 1 else 0

-- ================================================================= counters

theorem usageAt_modify (hf : ∀ n, (f n).usage = n.usage) (i j : Nat) :
    (g.modify i f).usageAt j = g.usageAt j := by
  unfold modify usageAt
  simp only [Array.getElem?_modify]
  split
  · cases g.nodes[j]? with
    | none => rfl
    | some n => simp [hf]
  · rfl

theorem usageAt_count (hi : i < g.size) (j : Nat) :
    (g.modify i fun n => { n with usage := n.usage + 1 }).usageAt j =
      g.usageAt j + if j = i then 1 else 0 := by
  have hi' : i < g.nodes.size := hi
  unfold modify usageAt
  simp only [Array.getElem?_modify]
  by_cases hj : j = i
  · subst hj
    rw [if_pos rfl, if_pos rfl, Array.getElem?_eq_getElem hi']
    rfl
  · rw [if_neg (Ne.symm hj), if_neg hj, Nat.add_zero]

/-- A new node has been asked for once. -/
theorem usageAt_add (g : Graph) (v : Bytes) (j : Nat) :
    (g.add v).usageAt j = g.usageAt j + if j = g.size then 1 else 0 := by
  unfold add usageAt size
  rw [Array.getElem?_push]
  split
  · next hj =>
    rw [hj, Array.getElem?_eq_none (Nat.le_refl _)]
    rfl
  · rw [Nat.add_zero]

/-- Asking for a value counts at its node alone. -/
theorem usageAt_getOrAdd (hg : g.Indexed) (v : Bytes) (j : Nat) :
    (g.getOrAdd v).1.usageAt j =
      g.usageAt j + if j = (g.getOrAdd v).2.1 then 1 else 0 := by
  unfold getOrAdd
  cases hv : g.indexOf? v with
  | some i => exact usageAt_count ((hg v i).1 hv).2.1 j
  | none => exact usageAt_add g v j

/-- Attaching a value counts once at its node, and nowhere else. -/
theorem usageAt_attachTo (hg : g.Indexed) (parent : Nat) (v : Bytes) (j : Nat) :
    (g.attachTo parent v).1.usageAt j =
      g.usageAt j + if j = (g.attachTo parent v).2.1 then 1 else 0 := by
  have hasked := usageAt_getOrAdd hg v j
  unfold attachTo
  generalize g.getOrAdd v = asked at hasked
  obtain ⟨h, i, added⟩ := asked
  dsimp only at hasked ⊢
  have hkeep :
      ∀ n : Node, ({ n with children := n.children.push i } : Node).usage =
        n.usage :=
    fun _ => rfl
  rw [← hasked]
  exact usageAt_modify hkeep parent j

-- =============================================================== references

/-- One more place to stand in for the node that was attached. -/
theorem references_attachTo (hg : g.Indexed) (hparent : parent < g.size)
    (v : Bytes) (j : Nat) :
    (g.attachTo parent v).1.references j =
      g.references j + if j = (g.attachTo parent v).2.1 then 1 else 0 := by
  have ha := attached_attachTo hg hparent v
  generalize g.attachTo parent v = attached at ha
  obtain ⟨h, i, added⟩ := attached
  dsimp only at ha ⊢
  have hcount : ∀ p, (h.childrenAt p).count j =
      (g.childrenAt p).count j +
        if p = parent then (if j = i then 1 else 0) else 0 := by
    intro p
    by_cases hp : p = parent
    · rw [if_pos hp, hp, ha.children, Array.count_push]
      simp only [beq_iff_eq, eq_comm (a := j)]
    · rw [if_neg hp, ha.others p hp, Nat.add_zero]
  have hold : ∑ p ∈ Finset.range h.size, (g.childrenAt p).count j =
      g.references j := by
    refine (Finset.sum_subset (Finset.range_mono ha.le_size) ?_).symm
    intro p _ hp
    rw [childrenAt_of_le (Nat.not_lt.1
      (fun hlt => hp (Finset.mem_range.2 hlt)))]
    rfl
  calc h.references j
      = ∑ p ∈ Finset.range h.size,
          ((g.childrenAt p).count j +
            if p = parent then (if j = i then 1 else 0) else 0) :=
        Finset.sum_congr rfl fun p _ => hcount p
    _ = g.references j + if j = i then 1 else 0 := by
        rw [Finset.sum_add_distrib, hold, Finset.sum_ite_eq',
          if_pos (Finset.mem_range.2 (Nat.lt_of_lt_of_le hparent ha.le_size))]

/-- Attaching a value to a node of a graph keeps `Q`. -/
def KeptByAttaching (Q : Graph → Prop) : Prop :=
  ∀ {g : Graph} {parent : Nat} (v : Bytes), g.Indexed → parent < g.size → Q g →
    Q (g.attachTo parent v).1

/-- That usages count references is kept by attaching: there is one
reference more, to the node that is counted. -/
theorem keptByAttaching_counted : KeptByAttaching Counted := by
  intro g parent v hg hparent hcounted j
  rw [usageAt_attachTo hg, references_attachTo hg hparent, hcounted j]
  exact Nat.add_right_comm ..

theorem counted_ofRoot (value : Bytes) : (ofRoot value).Counted := by
  intro i
  have hsize : (ofRoot value).size = 1 := rfl
  have hnone : (ofRoot value).references i = 0 := by
    unfold references
    rw [hsize, Finset.sum_range_one]
    rfl
  rw [hnone]
  cases i with
  | zero => rfl
  | succ i => rfl

end Graph

open XorSpan.Graph

-- ============================================================== expansions

namespace Expansion

variable {e t : Expansion}

/-- A step leaves the graph alone, or attaches two values to a node
that was pending. -/
theorem graph_of_move {base : Std.HashSet Bytes} {lines : List String}
    (h : e.step base = .move t lines) :
    t.graph = e.graph ∨ ∃ i ∈ e.pending, ∃ r : Record,
      t.graph = ((e.graph.attachTo i r.left).1.attachTo i r.right).1 := by
  unfold step at h
  split at h
  · cases h
  · next i pending hp =>
    dsimp only at h
    split at h
    · cases h
    · split at h
      · cases h
        exact .inl rfl
      · split at h
        · cases h
        · next r _ =>
          cases h
          exact .inr ⟨i, mem_pending hp, r, rfl⟩

variable {Q : Graph → Prop}

theorem Sound.keeps_seed (hQ : KeptByAttaching Q) (values : List Bytes)
    (hvalues : ∀ v ∈ values, s.Needed v) (he : Sound s 0 e)
    (hgraph : Q e.graph) :
    Q (values.foldl (·.attach 0 ·) e).graph := by
  induction values generalizing e with
  | nil => exact hgraph
  | cons v values ih =>
    obtain ⟨hv, hvalues⟩ := List.forall_mem_cons.1 hvalues
    have hfree : 0 ∉ e.pending := fun h => Nat.lt_irrefl 0 (he.pending 0 h).1
    have hattached : Q (e.attach 0 v).graph :=
      hQ v he.indexed e.graph.nonempty hgraph
    exact ih hvalues (he.attach e.graph.nonempty hfree hv).sound hattached

/-- What attaching keeps is kept by every step of the expansion. -/
theorem Sound.keeps_step {lines : List String} (hQ : KeptByAttaching Q)
    (he : Sound s 0 e)
    (hstep : e.step s.base = .move t lines) (hgraph : Q e.graph) :
    Q t.graph := by
  rcases graph_of_move hstep with heq | ⟨i, hi, r, heq⟩
  · rw [heq]
    exact hgraph
  · have hi : i < e.graph.size := (he.pending i hi).2.1
    have hleft := attached_attachTo he.indexed hi r.left
    have hlt : i < (e.graph.attachTo i r.left).1.size :=
      Nat.lt_of_lt_of_le hi hleft.le_size
    rw [heq]
    exact hQ r.right hleft.indexed hlt (hQ r.left he.indexed hi hgraph)

end Expansion

open Expansion

/-- What a root has, and what attaching values keeps, the graph of a
solution has. -/
theorem Solution.keeps_of_graph {Q : Graph → Prop} (hroot : Q (ofRoot s.target))
    (hQ : KeptByAttaching Q) (h : s.graph.outcome = .ok g) : Q g := by
  have hseeded : Q (s.computed.foldl (·.attach 0 ·) (initial s)).graph :=
    (sound_initial s).keeps_seed hQ s.computed (fun v hv => .computed hv) hroot
  have hstep : ∀ {e t : Expansion} {lines : List String},
      Sound s 0 e ∧ Q e.graph →
      (walk s.base).step e = .move t lines → Sound s 0 t ∧ Q t.graph := by
    intro e t lines ⟨he, hgraph⟩ hstep
    exact ⟨(he.step hstep).1, he.keeps_step hQ hstep hgraph⟩
  obtain ⟨r, hends⟩ := (walk s.base).exists_ends
    (s.computed.foldl (·.attach 0 ·) (initial s))
  have houtcome := (scripted_graph_of_ends hends).outcome_eq
  rw [h] at houtcome
  cases r with
  | error fault => cases houtcome
  | ok t =>
    cases houtcome
    obtain ⟨e, ⟨-, hgraph⟩, hrest⟩ :=
      hends.keeps hstep ⟨(sound_seeded s).1, hseeded⟩
    rw [(pending_eq_nil_of_rest hrest).2]
    exact hgraph

theorem Solution.counted_of_graph (h : s.graph.outcome = .ok g) : g.Counted :=
  keeps_of_graph (counted_ofRoot s.target) keptByAttaching_counted h

end XorSpan
