/-
Which lines a chart has. Drawing a graph, cyclic or not, owes the root's
line and a line for every reference from a node that the root leads to
(`Due`). Those are the lines that it writes, and no others
(`mem_body_iff`).

While the drawing goes on, what is owed by the nodes opened so far is
settled or still among the visits (`Drawing.Sound`). A visit is settled
when its line is written and its node opened, if there is such a node; so
at the end, with no visits left, every node that the root leads to has
been opened, one child after the other.
-/
import XorSpan.Proofs.Graph.Unfolding

namespace XorSpan.Chart

open Relation

variable {g : Graph} {i c : Nat} {parent : Option String}

-- =============================================================== the debt

/-- A visit that drawing the graph asks for: to a node, under a label. -/
inductive Due (g : Graph) : Nat → Option String → Prop where
  | root : Due g 0 none
  | child {i c : Nat} (hi : ReflTransGen g.Child 0 i) (hc : g.Child i c) :
      Due g c (some (label g i))

theorem Due.reached (h : Due g i parent) : ReflTransGen g.Child 0 i := by
  cases h with
  | root => exact .refl
  | child hi hc => exact hi.tail hc

namespace Drawing

variable {d e : Drawing} {text : String} {lines : List String}

/-- A visit that an opened node, or the root, asks for. -/
inductive Owed (g : Graph) (d : Drawing) : Nat → Option String → Prop where
  | root : Owed g d 0 none
  | child {i c : Nat} (hi : d.opened[i]? = some true) (hc : g.Child i c) :
      Owed g d c (some (label g i))

/-- The line is written, and the node is not waiting to be opened. -/
structure Settled (g : Graph) (d : Drawing) (i : Nat)
    (parent : Option String) : Prop where
  written : d.written.contains (line g i parent) = true
  opened : d.opened[i]? ≠ some false

/-- A drawing under way. -/
structure Sound (g : Graph) (d : Drawing) : Prop where
  size : d.opened.size = g.size
  due : ∀ i parent, (i, parent) ∈ d.visits → Due g i parent
  lines : ∀ text, d.written.contains text = true → ∃ i parent,
    Due g i parent ∧ line g i parent = text
  owed : ∀ i parent, Owed g d i parent → (i, parent) ∈ d.visits ∨
    Settled g d i parent

theorem sound_initial (g : Graph) : Sound g (initial g) where
  size := Array.size_replicate
  due i parent h := by
    cases List.mem_singleton.1 h
    exact .root
  lines text h := by
    have hblank : (initial g).written = ∅ := rfl
    rw [hblank, Std.HashSet.contains_empty] at h
    cases h
  owed i parent h := by
    cases h with
    | root => exact .inl (List.mem_singleton_self _)
    | @child i c hi _ =>
      have hclosed : (initial g).opened = Array.replicate g.size false := rfl
      rw [hclosed, Array.getElem?_replicate] at hi
      split at hi <;> cases hi

-- =============================================================== one visit

/-- Entering a node leaves none of its number unopened. It may be that
there is no such number. -/
theorem opened_enter_self (g : Graph) (d : Drawing) (i : Nat) :
    (enter g d i).opened[i]? ≠ some false := by
  unfold enter
  split
  · next h =>
    rw [Array.getElem?_setIfInBounds_self]
    split <;> simp
  · next h => exact h

/-- No node is closed again. So what has been drawn is not drawn
again. -/
theorem opened_enter_of_ne_false {j : Nat} (h : d.opened[j]? ≠ some false) :
    (enter g d i).opened[j]? ≠ some false := by
  by_cases hj : j = i
  · rw [hj]
    exact opened_enter_self g d i
  · unfold enter
    split
    · rw [Array.getElem?_setIfInBounds_ne (Ne.symm hj)]
      exact h
    · exact h

/-- The visits that were there stay. New ones are put in front of
them. -/
theorem mem_visits_enter {v : Nat × Option String} (h : v ∈ d.visits) :
    v ∈ (enter g d i).visits := by
  unfold enter
  split
  · exact List.mem_append_right _ h
  · exact h

/-- A visit that is new belongs to a child of the node entered. Its
line will name that node as the parent. -/
theorem of_mem_visits_enter {v : Nat × Option String}
    (h : v ∈ (enter g d i).visits) :
    v ∈ d.visits ∨ ∃ c, g.Child i c ∧ v = (c, some (label g i)) := by
  unfold enter at h
  split at h
  · rcases List.mem_append.1 h with hnew | hold
    · obtain ⟨c, hc, rfl⟩ := List.mem_map.1 hnew
      exact .inr ⟨c, Array.mem_toList_iff.1 hc, rfl⟩
    · exact .inl hold
  · exact .inl h

/-- The children of a node that has just been opened are to be
visited. -/
theorem mem_visits_enter_of_opened (hbefore : d.opened[i]? ≠ some true)
    (hafter : (enter g d i).opened[i]? = some true) (hc : g.Child i c) :
    (c, some (label g i)) ∈ (enter g d i).visits := by
  unfold enter at hafter ⊢
  split
  · exact List.mem_append_left
      _ (List.mem_map.2 ⟨c, Array.mem_toList_iff.2 hc, rfl⟩)
  · next h =>
    rw [if_neg h] at hafter
    exact absurd hafter hbefore

/-- Whatever a step does, it visits one node: writes its line if that
is new, and enters it. -/
theorem step_eq_of_move (h : step g d = .move e lines) :
    ∃ i parent visits, d.visits = (i, parent) :: visits ∧
      e = enter g (put { d with visits } (line g i parent)).1 i ∧
      lines = d.fresh [line g i parent] := by
  unfold step at h
  split at h
  · cases h
  · next i parent visits hv =>
    simp only [Stride.move.injEq] at h
    obtain ⟨rfl, rfl⟩ := h
    refine ⟨i, parent, visits, hv, rfl, ?_⟩
    rw [lines_put]
    rfl

/-- The walk rests when there is nothing left to visit. It changes
nothing in resting. -/
theorem eq_of_rest (h : Drawing.step g d = .rest e) :
    e = d ∧ d.visits = [] := by
  unfold Drawing.step at h
  split at h
  · next hvisits =>
    cases h
    exact ⟨rfl, hvisits⟩
  · cases h

theorem Sound.step (hd : Sound g d) (h : step g d = .move e lines) :
    Sound g e := by
  obtain ⟨i, parent, visits, hvisits, rfl, -⟩ := step_eq_of_move h
  obtain ⟨f, hf⟩ : ∃ f, f = (put { d with visits } (line g i parent)).1 :=
    ⟨_, rfl⟩
  have hfvisits : f.visits = visits := by rw [hf]; exact put_visits ..
  have hfopened : f.opened = d.opened := by rw [hf]; exact put_opened ..
  have hfwritten : ∀ text, f.written.contains text =
      (d.written.contains text || text == line g i parent) := by
    intro text
    rw [hf, wrote_put { d with visits } (line g i parent) text,
      contains_singleton]
  rw [← hf]
  have hdue : Due g i parent :=
    hd.due i parent (by rw [hvisits]; exact List.mem_cons_self ..)
  have hkeep : ∀ j label, Settled g d j label →
      Settled g (enter g f i) j label := by
    intro j label hs
    refine ⟨?_, opened_enter_of_ne_false (by rw [hfopened]; exact hs.opened)⟩
    rw [written_enter, hfwritten, hs.written, Bool.true_or]
  have hvisited : Settled g (enter g f i) i parent := by
    refine ⟨?_, opened_enter_self g f i⟩
    rw [written_enter, hfwritten, beq_self_eq_true, Bool.or_true]
  -- what was owed before the visit is still to be visited, or settled
  have hbefore : ∀ j label, Owed g d j label →
      (j, label) ∈ (enter g f i).visits ∨ Settled g (enter g f i) j label := by
    intro j label howed
    rcases hd.owed j label howed with hmem | hsettled
    · rw [hvisits] at hmem
      rcases List.mem_cons.1 hmem with heq | hmem
      · cases heq
        exact .inr hvisited
      · exact .inl (mem_visits_enter (by rw [hfvisits]; exact hmem))
    · exact .inr (hkeep j label hsettled)
  refine ⟨?_, ?_, ?_, ?_⟩
  · rw [size_opened_enter, hfopened]
    exact hd.size
  · intro j label hmem
    rcases of_mem_visits_enter hmem with hold | ⟨c, hc, heq⟩
    · refine hd.due j label ?_
      rw [hvisits]
      exact List.mem_cons_of_mem _ (by rw [← hfvisits]; exact hold)
    · cases heq
      exact .child hdue.reached hc
  · intro text htext
    rw [written_enter, hfwritten, Bool.or_eq_true] at htext
    rcases htext with hold | hnew
    · exact hd.lines text hold
    · exact ⟨i, parent, hdue, (beq_iff_eq.1 hnew).symm⟩
  · intro j label howed
    cases howed with
    | root => exact hbefore 0 none .root
    | @child k _ hk hc =>
      by_cases hopen : d.opened[k]? = some true
      · exact hbefore j _ (.child hopen hc)
      · -- it is the node just opened that asks
        have hki : k = i := by
          rcases of_opened_enter hk with hk | hk
          · rw [hfopened] at hk
            exact absurd hk hopen
          · exact hk
        subst hki
        exact .inl (mem_visits_enter_of_opened
          (by rw [hfopened]; exact hopen) hk hc)

-- ============================================================ a whole walk

/-- With no visits left, all that is owed is settled. What is owed is
a visit that is pending, or a line that is written. -/
theorem Sound.settled (hd : Sound g d) (hend : d.visits = [])
    (h : Owed g d i parent) :
    Settled g d i parent := by
  refine (hd.owed i parent h).resolve_left ?_
  rw [hend]
  exact List.not_mem_nil

/-- A node with a child is a node of the graph and has a mark. So if
the mark does not say that it is unopened, it has been opened. -/
theorem Sound.opened_of_child (hd : Sound g d) (hc : g.Child i c)
    (hi : d.opened[i]? ≠ some false) : d.opened[i]? = some true := by
  have hlt : i < d.opened.size := by
    rw [hd.size]
    exact Graph.lt_of_mem_childrenAt hc
  rw [Array.getElem?_eq_getElem hlt] at hi ⊢
  cases h : d.opened[i] with
  | true => rfl
  | false => exact absurd (congrArg some h) hi

/-- With no visits left, whatever the root leads to has been opened.
The induction goes from the root down: a node that is open has its
children visited. -/
theorem Sound.opened_of_reached (hd : Sound g d) (hend : d.visits = [])
    (hi : ReflTransGen g.Child 0 i) : d.opened[i]? ≠ some false := by
  induction hi with
  | refl => exact (hd.settled hend .root).opened
  | tail _ hc ih =>
    exact (hd.settled hend (.child (hd.opened_of_child hc ih) hc)).opened

theorem Sound.written_of_due (hd : Sound g d) (hend : d.visits = [])
    (h : Due g i parent) :
    d.written.contains (line g i parent) = true := by
  cases h with
  | root => exact (hd.settled hend .root).written
  | child hi hc =>
    have hopen := hd.opened_of_child hc (hd.opened_of_reached hend hi)
    exact (hd.settled hend (.child hopen hc)).written

/-- A walk writes the lines that it has in the end and did not have at
the beginning. -/
theorem written_iff_of_ends (h : (walk g).Ends d (.ok e)) (text : String) :
    e.written.contains text = true ↔
    d.written.contains text = true ∨ text ∈ (walk g).lines d := by
  induction h using Walk.Ends.induction_ok with
  | rest d hstep =>
    rw [Walk.lines_of_rest hstep, (eq_of_rest hstep).1]
    exact (or_iff_left List.not_mem_nil).symm
  | move d d' lines hstep _ ih =>
    obtain ⟨i, parent, visits, -, rfl, hlines⟩ := step_eq_of_move hstep
    rw [ih, Walk.lines_of_move hstep, written_enter, List.mem_append, hlines,
      wrote_put { d with visits } (line g i parent) text, contains_singleton,
      Bool.or_eq_true, beq_iff_eq]
    have hfresh : text ∈ d.fresh [line g i parent] ↔
        text = line g i parent ∧ d.written.contains text = false := by
      unfold fresh
      rw [List.mem_eraseDups, List.mem_filter, List.mem_singleton,
        Bool.not_eq_true']
    rw [hfresh]
    cases d.written.contains text <;> simp

/-- Drawing a graph comes to an end, whatever the graph. A visit
cannot fail, and there are only so many. -/
theorem exists_ends_ok (g : Graph) :
    ∃ e, (walk g).Ends (initial g) (.ok e) ∧ Sound g e ∧ e.visits = [] := by
  obtain ⟨r, hends⟩ := (walk g).exists_ends (initial g)
  cases r with
  | error fault =>
    obtain ⟨d, -, hfail⟩ := hends.keeps_fault (P := Sound g) Sound.step
      (sound_initial g)
    have hstep : Drawing.step g d = .fail fault := hfail
    unfold Drawing.step at hstep
    split at hstep <;> cases hstep
  | ok e =>
    obtain ⟨d, hd, hrest⟩ := hends.keeps (P := Sound g) Sound.step
      (sound_initial g)
    obtain ⟨rfl, hvisits⟩ := eq_of_rest hrest
    exact ⟨e, hends, hd, hvisits⟩

end Drawing

/-- The lines of a chart are those that its graph owes. They are one
for the root, and one for each reference from a node that it leads to. -/
theorem mem_body_iff (g : Graph) (text : String) :
    text ∈ body g ↔ ∃ i parent, Due g i parent ∧ line g i parent = text := by
  obtain ⟨e, hends, hsound, hend⟩ := Drawing.exists_ends_ok g
  have hwritten := Drawing.written_iff_of_ends hends text
  have hblank : (Drawing.initial g).written = ∅ := rfl
  rw [hblank, Std.HashSet.contains_empty,
    or_iff_right Bool.false_ne_true] at hwritten
  unfold body
  rw [← hwritten]
  constructor
  · exact hsound.lines text
  · rintro ⟨i, parent, hdue, rfl⟩
    exact hsound.written_of_due hend hdue

end XorSpan.Chart
