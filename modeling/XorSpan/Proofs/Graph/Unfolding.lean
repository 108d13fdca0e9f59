/-
What the chart leaves out. Written out in full, a graph without cycles is
a tree: every reference to a child is followed by all that is below the
child (`Chart.unfolding`). The chart takes the way below a node only
once, and still its lines are those of the tree, each where it first
occurs (`body_eq_eraseDups`).

The argument follows the drawing of one visit, by induction from the
leaves up (`exists_drawn`). When a visit begins, every node below it that
has been opened before has all lines below it written (`Ready`): had it
been opened and not finished, it would be above itself. So what a visit
leaves out has been written, and since a whole subtree is written at its
end, the next visit begins in the same way.
-/
import Mathlib.Order.WellFoundedSet
import XorSpan.Graph.Chart
import XorSpan.Proofs.Graph.Arena
import XorSpan.Proofs.Graph.Paths
import XorSpan.Proofs.Jobs

namespace XorSpan

open Relation

-- ======================================================= from the leaves up

namespace Graph

/-- A graph without cycles has an induction from children to parents.
There are only finitely many nodes, so a chain of children that does
not end would come back to one of them. -/
theorem wellFounded_child {g : Graph} (hg : ¬g.Cyclic) :
    WellFounded fun c i => g.Child i c := by
  have hirrefl : ∀ i, ¬TransGen (fun c i => g.Child i c) i i := by
    intro i hi
    exact hg ⟨i, transGen_swap.1 hi⟩
  have _ : IsStrictOrder Nat (TransGen fun c i => g.Child i c) :=
    { irrefl := hirrefl, trans := fun _ _ _ => TransGen.trans }
  have hnodes :
      (Set.Iio g.size).WellFoundedOn (TransGen fun c i => g.Child i c) :=
    (Set.finite_Iio g.size).wellFoundedOn
  rw [Set.wellFoundedOn_iff] at hnodes
  constructor
  intro i
  induction i using hnodes.induction with
  | _ i ih =>
    refine .intro i ?_
    intro c hc
    rcases Nat.lt_or_ge c g.size with hlt | hle
    · exact ih c ⟨.single hc, hlt, lt_of_mem_childrenAt hc⟩
    · -- a number past the last node has no children
      refine .intro c ?_
      intro d hd
      exact absurd (lt_of_mem_childrenAt hd) (Nat.not_lt.2 hle)

/-- Where children come after their parents there is no cycle. Numbers
do not rise for ever. -/
theorem not_cyclic_of_lt {g : Graph}
    (h : ∀ i c, g.Child i c → i < c) : ¬g.Cyclic := by
  have hlt : ∀ {i j : Nat}, TransGen g.Child i j → i < j := by
    intro i j hij
    induction hij with
    | single hc => exact h _ _ hc
    | tail _ hc ih => exact Nat.lt_trans ih (h _ _ hc)
  intro ⟨i, hi⟩
  exact Nat.lt_irrefl i (hlt hi)

end Graph

namespace Chart

variable {g : Graph} {hg : ¬g.Cyclic} {i : Nat} {parent : Option String}

/-- The lines of a node under a parent's label and of all that is
below the node, written out anew for every reference. -/
def unfolding (g : Graph) (hg : ¬g.Cyclic) (i : Nat) (parent : Option String) :
    List String :=
  line g i parent ::
    (g.childrenAt i).toList.attach.flatMap fun c =>
      unfolding g hg c.1 (some (label g i))
termination_by (Graph.wellFounded_child hg).wrap i
decreasing_by exact Array.mem_toList_iff.1 c.2

/-- The lines below a node. -/
def below (g : Graph) (hg : ¬g.Cyclic) (i : Nat) : List String :=
  (g.childrenAt i).toList.flatMap fun c => unfolding g hg c (some (label g i))

/-- What is drawn for a node is its own line and then what is below
it. -/
theorem unfolding_eq (g : Graph) (hg : ¬g.Cyclic) (i : Nat)
    (parent : Option String) :
    unfolding g hg i parent = line g i parent :: below g hg i := by
  rw [unfolding, below]
  simp only [List.flatMap_subtype, List.unattach_attach]

/-- Whatever is below a node below `i` is below `i`. So what was drawn
with one of several parents need not be drawn again with the others. -/
theorem below_subset_of_reached {j : Nat} (h : ReflTransGen g.Child i j) :
    below g hg j ⊆ below g hg i := by
  induction h using ReflTransGen.head_induction_on with
  | refl => exact List.Subset.refl _
  | @head i c hc _ ih =>
    intro text htext
    refine List.mem_flatMap.2 ⟨c, Array.mem_toList_iff.2 hc, ?_⟩
    rw [unfolding_eq]
    exact List.mem_cons_of_mem _ (ih htext)

-- ================================================================= writing

namespace Drawing

variable {d e f : Drawing} {texts more : List String}

/-- What is new in a list of texts, each where it first occurs. -/
def fresh (d : Drawing) (texts : List String) : List String :=
  (texts.filter fun text => !d.written.contains text).eraseDups

/-- `e` has these texts written besides those of `d`. -/
def Wrote (d e : Drawing) (texts : List String) : Prop :=
  ∀ text, e.written.contains text =
    (d.written.contains text || texts.contains text)

/-- Of texts that are written already none is new. -/
theorem fresh_eq_nil (h : ∀ text ∈ texts, d.written.contains text = true) :
    d.fresh texts = [] := by
  have hnone : (texts.filter fun text => !d.written.contains text) = [] := by
    rw [List.filter_eq_nil_iff]
    intro text htext
    simp [h text htext]
  unfold fresh
  rw [hnone, List.eraseDups_nil]

/-- Texts in a row: the second part is looked at with the first
written. That makes texts in a row independent of where they are cut. -/
theorem fresh_append (h : Wrote d e texts) :
    d.fresh (texts ++ more) = d.fresh texts ++ e.fresh more := by
  have hrest : (more.filter fun text => !d.written.contains text).removeAll
      (texts.filter fun text => !d.written.contains text) =
      more.filter fun text => !e.written.contains text := by
    unfold List.removeAll
    rw [List.filter_filter]
    refine List.filter_congr ?_
    intro text _
    rw [h text]
    cases hd : d.written.contains text <;> simp [hd]
  unfold fresh
  rw [List.filter_append, List.eraseDups_append, hrest]

/-- Texts written behind others: in the end all of them are written,
and nothing besides what was written before. -/
theorem Wrote.append (h : Wrote d e texts) (h' : Wrote e f more) :
    Wrote d f (texts ++ more) := by
  intro text
  rw [h' text, h text, List.contains_append, Bool.or_assoc]

/-- What was to be written is written then, be it now or before. -/
theorem Wrote.of_mem {text : String} (h : Wrote d e texts)
    (htext : text ∈ texts) :
    e.written.contains text = true := by
  rw [h text, List.contains_iff_mem.2 htext, Bool.or_true]

/-- And nothing that was written is taken back. -/
theorem Wrote.mono {text : String} (h : Wrote d e texts)
    (htext : d.written.contains text = true) :
    e.written.contains text = true := by
  rw [h text, htext, Bool.true_or]

theorem contains_singleton (text other : String) :
    [text].contains other = (other == text) := by
  rw [List.contains_cons, List.contains_nil, Bool.or_false]

/-- One step writes its one text. -/
theorem wrote_put (d : Drawing) (text : String) :
    Wrote d (d.put text).1 [text] := by
  intro other
  rw [contains_singleton]
  unfold put
  split
  · next h =>
    by_cases heq : other = text
    · rw [heq, h, Bool.true_or]
    · rw [beq_eq_false_iff_ne.2 heq, Bool.or_false]
  · dsimp only
    have hinsert : (d.written.insert text).contains other =
        (d.written.contains other || other == text) := by
      rw [Std.HashSet.contains_insert, Bool.or_comm, BEq.comm]
    split <;> exact hinsert

/-- The line it gives is the text, if that is new, and else none. -/
theorem lines_put (d : Drawing) (text : String) :
    (d.put text).2 = d.fresh [text] := by
  unfold put fresh
  split
  · next h => simp [h]
  · next h =>
    dsimp only
    split <;> simp [h, List.eraseDups_cons]

-- ================================================================ visiting

/-- The lines below a node have all been written. -/
def Done (g : Graph) (hg : ¬g.Cyclic) (d : Drawing) (j : Nat) : Prop :=
  ∀ text ∈ below g hg j, d.written.contains text = true

/-- What a visit of `i` may rely on. -/
structure Ready (g : Graph) (hg : ¬g.Cyclic) (d : Drawing)
    (i : Nat) : Prop where
  size : d.opened.size = g.size
  done : ∀ j, ReflTransGen g.Child i j →
    d.opened[j]? = some true → Done g hg d j

/-- From `d` on, the drawing writes what is new in `texts` and comes
to `e`, where `visits` are left and only nodes of `reached` have been
opened meanwhile. -/
structure Drawn (g : Graph) (d e : Drawing) (texts : List String)
    (visits : List (Nat × Option String)) (reached : Nat → Prop) : Prop where
  visits : e.visits = visits
  size : e.opened.size = d.opened.size
  lines : (walk g).lines d = d.fresh texts ++ (walk g).lines e
  wrote : Wrote d e texts
  opened : ∀ j, e.opened[j]? = some true → d.opened[j]? = some true ∨ reached j

/-- Nothing is to be done for texts that are written already. It is so
for the unfolding of a node that was entered before. -/
theorem drawn_of_written (h : ∀ text ∈ texts, d.written.contains text = true)
    (reached : Nat → Prop) : Drawn g d d texts d.visits reached where
  visits := rfl
  size := rfl
  lines := by rw [fresh_eq_nil h, List.nil_append]
  wrote text := by
    by_cases htext : text ∈ texts
    · rw [h text htext, Bool.true_or]
    · rw [Bool.eq_false_iff.2 (mt List.contains_iff_mem.1 htext), Bool.or_false]
  opened j hj := .inl hj

/-- A drawing that goes on after another has drawn both, with all that
is reached by either. -/
theorem Drawn.append {visits later : List (Nat × Option String)}
    {here there reached : Nat → Prop}
    (h : Drawn g d e texts visits here) (h' : Drawn g e f more later there)
    (hhere : ∀ j, here j → reached j) (hthere : ∀ j, there j → reached j) :
    Drawn g d f (texts ++ more) later reached where
  visits := h'.visits
  size := h'.size.trans h.size
  lines := by rw [h.lines, h'.lines, fresh_append h.wrote, List.append_assoc]
  wrote := h.wrote.append h'.wrote
  opened j hj := by
    rcases h'.opened j hj with hj | hj
    · exact (h.opened j hj).imp_right (hhere j)
    · exact .inr (hthere j hj)

/-- Entering a node writes nothing. -/
theorem written_enter (g : Graph) (d : Drawing) (i : Nat) :
    (enter g d i).written = d.written := by
  unfold enter
  split <;> rfl

/-- Nor does it change how many nodes there are to enter. -/
theorem size_opened_enter (g : Graph) (d : Drawing) (i : Nat) :
    (enter g d i).opened.size = d.opened.size := by
  unfold enter
  split
  · exact Array.size_setIfInBounds
  · rfl

/-- Entering a node opens no other. So what is open is what has been
entered. -/
theorem of_opened_enter {j : Nat} (h : (enter g d i).opened[j]? = some true) :
    d.opened[j]? = some true ∨ j = i := by
  by_cases hj : j = i
  · exact .inr hj
  · unfold enter at h
    split at h
    · rw [Array.getElem?_setIfInBounds_ne (Ne.symm hj)] at h
      exact .inl h
    · exact .inl h

/-- The first step of a visit writes the node's own line. What is to
be visited next are its children, if it had not been entered, and then
the others. -/
theorem exists_drawn_line {visits : List (Nat × Option String)}
    (h : d.visits = (i, parent) :: visits) :
    ∃ e, e.visits = visits ∧ e.opened = d.opened ∧
      Drawn g d (enter g e i) [line g i parent] (enter g e i).visits
        (· = i) := by
  have hstep : (walk g).step d =
      .move (enter g (put { d with visits } (line g i parent)).1 i)
      (put { d with visits } (line g i parent)).2 := by
    show Drawing.step g d = _
    unfold Drawing.step
    rw [h]
  have hopened : (put { d with visits } (line g i parent)).1.opened =
      d.opened := put_opened ..
  refine ⟨_, put_visits .., hopened, rfl, ?_, ?_, ?_, ?_⟩
  · rw [size_opened_enter, hopened]
  · rw [Walk.lines_of_move hstep, lines_put]
    rfl
  · intro text
    rw [written_enter]
    exact wrote_put { d with visits } _ text
  · intro j hj
    rw [← hopened]
    exact of_opened_enter hj

/-- After a visit of one node, another can be visited. What has been
opened has all of its unfolding written, and the visit keeps that. -/
theorem Ready.next {c : Nat} {visits : List (Nat × Option String)}
    (h : Ready g hg d i)
    (hdrawn : Drawn g d e (unfolding g hg c parent) visits
      (ReflTransGen g.Child c)) :
    Ready g hg e i where
  size := hdrawn.size.trans h.size
  done j hj hopened text htext := by
    rcases hdrawn.opened j hopened with hopened | hreached
    · exact hdrawn.wrote.mono (h.done j hj hopened text htext)
    · refine hdrawn.wrote.of_mem ?_
      rw [unfolding_eq]
      exact List.mem_cons_of_mem _ (below_subset_of_reached hreached htext)

/-- Visits of several nodes in a row. The induction is on the list of
children, and each visit is taken as given. -/
theorem exists_drawn_children {children : List Nat}
    {visits : List (Nat × Option String)}
    (hone : ∀ c ∈ children, ∀ (d : Drawing) (parent : Option String)
      (visits : List (Nat × Option String)), d.visits = (c, parent) :: visits →
      Ready g hg d c →
      ∃ e, Drawn g d e (unfolding g hg c parent) visits
        (ReflTransGen g.Child c))
    (hd : d.visits = children.map (fun c => (c, parent)) ++ visits)
    (hready : ∀ c ∈ children, Ready g hg d c) :
    ∃ e, Drawn g d e (children.flatMap fun c => unfolding g hg c parent) visits
      fun j => ∃ c ∈ children, ReflTransGen g.Child c j := by
  induction children generalizing d with
  | nil =>
    have hvisits : d.visits = visits := hd
    rw [← hvisits]
    exact ⟨d, drawn_of_written (List.forall_mem_nil _) _⟩
  | cons c children ih =>
    obtain ⟨honec, hone⟩ := List.forall_mem_cons.1 hone
    obtain ⟨hreadyc, hready⟩ := List.forall_mem_cons.1 hready
    obtain ⟨e, he⟩ := honec d parent _ hd hreadyc
    obtain ⟨f, hf⟩ := ih hone he.visits fun c' hc' => (hready c' hc').next he
    refine ⟨f, he.append hf ?_ ?_⟩
    · intro j hj
      exact ⟨c, List.mem_cons_self .., hj⟩
    · intro j ⟨c', hc', hj⟩
      exact ⟨c', List.mem_cons_of_mem _ hc', hj⟩

/-- A visit writes what is new of the whole unfolding, whether the
node's children are visited or left out. -/
theorem exists_drawn (i : Nat) (d : Drawing) (parent : Option String)
    (visits : List (Nat × Option String))
    (hd : d.visits = (i, parent) :: visits) (hready : Ready g hg d i) :
    ∃ e, Drawn g d e (unfolding g hg i parent) visits
      (ReflTransGen g.Child i) := by
  induction i using (Graph.wellFounded_child hg).induction generalizing d
    parent visits with
  | _ i ih =>
    obtain ⟨e, hvisits, hopened, hline⟩ := exists_drawn_line (g := g) hd
    rw [unfolding_eq]
    by_cases hnew : e.opened[i]? = some false
    · -- the children are visited right away
      have henter : enter g e i = { e with
          visits := (g.childrenAt i).toList.map
            (fun c => (c, some (label g i))) ++ visits
          opened := e.opened.setIfInBounds i true } := by
        unfold enter
        rw [if_pos hnew, hvisits]
      have hchildren : ∀ c ∈ (g.childrenAt i).toList,
          Ready g hg (enter g e i) c := by
        intro c hc
        have hchild : g.Child i c := Array.mem_toList_iff.1 hc
        refine ⟨hline.size.trans hready.size, ?_⟩
        intro j hj hopened' text htext
        rcases hline.opened j hopened' with hbefore | rfl
        · exact hline.wrote.mono (hready.done j
            (.head hchild hj) hbefore text htext)
        · exact absurd ⟨j, TransGen.head' hchild hj⟩ hg
      obtain ⟨f, hf⟩ := exists_drawn_children
        (fun c hc => ih c (Array.mem_toList_iff.1 hc))
        (by rw [henter]) hchildren
      refine ⟨f, hline.append hf ?_ ?_⟩
      · intro j hj
        rw [hj]
      · intro j ⟨c, hc, hj⟩
        exact .head (Array.mem_toList_iff.1 hc) hj
    · -- they were visited before, or there are none
      have henter : enter g e i = e := if_neg hnew
      rw [henter, hvisits] at hline
      have hdone : Done g hg d i := by
        by_cases hopen : d.opened[i]? = some true
        · exact hready.done i .refl hopen
        · have hnone : d.opened[i]? = none := by
            rw [hopened] at hnew
            cases hget : d.opened[i]? with
            | none => rfl
            | some b => cases b <;> simp_all
          have hle : g.size ≤ i := by
            rw [← hready.size]
            exact Array.getElem?_eq_none_iff.1 hnone
          intro text htext
          unfold below at htext
          rw [Graph.childrenAt_of_le hle] at htext
          cases htext
      have hrest :
          Drawn g e e (below g hg i) e.visits (ReflTransGen g.Child i) :=
        drawn_of_written (fun text htext => hline.wrote.mono
          (hdone text htext)) _
      rw [hvisits] at hrest
      refine ⟨e, hline.append hrest ?_ fun _ => id⟩
      intro j hj
      rw [hj]

end Drawing

-- ================================================================ the body

/-- The body of the chart of a graph without cycles is its unfolding
with every line kept only where it first occurs. -/
theorem body_eq_eraseDups (g : Graph) (hg : ¬g.Cyclic) :
    body g = (unfolding g hg 0 none).eraseDups := by
  have hready : Drawing.Ready g hg (Drawing.initial g) 0 := by
    refine ⟨Array.size_replicate, ?_⟩
    intro j _ hopened
    have hclosed : (Drawing.initial g).opened =
        Array.replicate g.size false := rfl
    rw [hclosed, Array.getElem?_replicate] at hopened
    split at hopened <;> cases hopened
  obtain ⟨e, he⟩ := Drawing.exists_drawn 0
    (Drawing.initial g) none [] rfl hready
  have hrest : (Drawing.walk g).step e = .rest e := by
    show Drawing.step g e = _
    unfold Drawing.step
    rw [he.visits]
  have hfresh : (Drawing.initial g).fresh (unfolding g hg 0 none) =
      (unfolding g hg 0 none).eraseDups := by
    unfold Drawing.fresh
    congr 1
    refine List.filter_eq_self.2 ?_
    intro text _
    have hblank : (Drawing.initial g).written = ∅ := rfl
    rw [hblank, Std.HashSet.contains_empty]
    rfl
  unfold body
  rw [he.lines, hfresh, Walk.lines_of_rest hrest, List.append_nil]

/-- Two values that are both made of a third, and so reach the last in
two ways. -/
def diamond : Graph where
  nodes := #[⟨#[3], #[1, 2], 1⟩, ⟨#[1], #[3], 1⟩, ⟨#[2], #[3], 1⟩,
    ⟨#[4], #[4], 2⟩, ⟨#[8], #[], 1⟩]
  index := .ofList [(#[1], 1), (#[2], 2), (#[4], 3), (#[8], 4)]
  nonempty := by decide

/-- The children of the example come after their parents, so it has no
cycle. -/
theorem not_cyclic_diamond : ¬diamond.Cyclic := by
  have hafter : ∀ i < 5, ∀ c ∈ diamond.childrenAt i, i < c := by decide +kernel
  refine Graph.not_cyclic_of_lt ?_
  intro i c hc
  exact hafter i (Graph.lt_of_mem_childrenAt hc) c hc

/-- A node with two parents. Its line stands once for each of them,
since it names the parent; the line of its leaf stands twice in the
unfolding and once in the chart. -/
theorem body_eq_eraseDups_diamond : ∃ hg : ¬diamond.Cyclic,
    body diamond = (unfolding diamond hg 0 none).eraseDups ∧
      unfolding diamond hg 0 none =
        ["03[03=01^02]", "01[01=04] --> 03", "04[04=08] --> 01", "08 --> 04",
          "02[02=04] --> 03", "04[04=08] --> 02", "08 --> 04"] := by
  refine ⟨not_cyclic_diamond, body_eq_eraseDups diamond not_cyclic_diamond, ?_⟩
  have hlines : ∀ (i : Nat) (children : List Nat) (parent : Option String),
      (diamond.childrenAt i).toList = children →
      unfolding diamond not_cyclic_diamond i parent = line diamond i parent ::
        children.flatMap fun c =>
          unfolding diamond not_cyclic_diamond c (some (label diamond i)) := by
    intro i children parent hchildren
    rw [unfolding_eq, below, hchildren]
  have hleaf := fun parent => hlines 4 [] parent rfl
  have hshared := fun parent => hlines 3 [4] parent rfl
  have hright := fun parent => hlines 2 [3] parent rfl
  have hleft := fun parent => hlines 1 [3] parent rfl
  rw [hlines 0 [1, 2] none rfl]
  simp only [hleft, hright, hshared, hleaf, List.flatMap_cons, List.flatMap_nil]
  decide +kernel

end Chart

end XorSpan
