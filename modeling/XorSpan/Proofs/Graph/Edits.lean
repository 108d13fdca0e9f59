/-
What calls keep of a graph. A graph begins as a root alone and grows by
calls that ask for values and attach them, in any order, to parents that
may be any node or none: a value to itself, to one of its own summands,
to a node that the root does not lead to. So there may be cycles; but
the index stays exact, and every child is a node other than the root
(`Made`, `made_editAll`).

A call that names no parent fails after it has asked for its value, and
what it leaves is a graph like any other.
-/
import XorSpan.Proofs.Graph.Arena

namespace XorSpan.Graph

variable {g h : Graph} {i p : Nat} {v : Bytes} {number : Int}

/-- Every child is a node of the graph. -/
def Formed (g : Graph) : Prop := ∀ i, ∀ c ∈ g.childrenAt i, c < g.size

/-- What every graph has that calls have made. -/
structure Made (g : Graph) : Prop where
  indexed : g.Indexed
  range : ∀ i, ∀ c ∈ g.childrenAt i, 0 < c ∧ c < g.size

theorem Made.formed (hg : Made g) : g.Formed :=
  fun i c hc => (hg.range i c hc).2

theorem made_ofRoot (value : Bytes) : Made (ofRoot value) where
  indexed v i := by
    have hnone : (ofRoot value).indexOf? v = none := Std.HashMap.getElem?_empty
    rw [hnone]
    constructor
    · intro h
      cases h
    · rintro ⟨hpos, hlt, -⟩
      exact absurd hpos (Nat.not_lt.2 (Nat.le_of_lt_succ hlt))
  range i c hc := by
    have hchildren : (ofRoot value).childrenAt i = #[] := by cases i <;> rfl
    rw [hchildren] at hc
    exact absurd hc (Array.not_mem_empty c)

-- ================================================================ one call

theorem lt_of_locate (hp : g.locate number = some p) : p < g.size := by
  unfold locate at hp
  dsimp only at hp
  generalize (if number < 0 then number + g.size else number) = i at hp
  split at hp
  · cases hp
    omega
  · cases hp

/-- Asking for a value makes no child. -/
theorem Made.getOrAdd (hg : Made g) (v : Bytes) : Made (g.getOrAdd v).1 := by
  have ha := asked_getOrAdd hg.indexed v
  refine ⟨ha.indexed, ?_⟩
  intro i c hc
  rw [ha.childrenAt] at hc
  obtain ⟨hpos, hlt⟩ := hg.range i c hc
  exact ⟨hpos, Nat.lt_of_lt_of_le hlt ha.le_size⟩

/-- A node gets another for a child, perhaps itself. -/
theorem Made.adopt (hg : Made g) (hp : p < g.size) (hi : 0 < i ∧ i < g.size) :
    Made (g.modify p fun n => { n with children := n.children.push i }) := by
  have hkeep :
      ∀ n : Node, ({ n with children := n.children.push i } : Node).value =
        n.value :=
    fun _ => rfl
  refine ⟨hg.indexed.modify hkeep p, ?_⟩
  intro j c hc
  rw [size_modify]
  by_cases hj : j = p
  · rw [hj, childrenAt_modify_self (·.push i) (fun _ => rfl) hp] at hc
    rcases Array.mem_push.1 hc with hc | rfl
    · exact hg.range p c hc
    · exact hi
  · rw [childrenAt_modify_of_ne _ hj] at hc
    exact hg.range j c hc

theorem Made.attach (hg : Made g) (parent : Int) (v : Bytes) :
    Made (g.attach parent v).1 := by
  have ha := asked_getOrAdd hg.indexed v
  have hmade := hg.getOrAdd v
  unfold Graph.attach
  generalize g.getOrAdd v = asked at ha hmade
  obtain ⟨h, i, added⟩ := asked
  dsimp only at ha hmade ⊢
  cases hp : h.locate parent with
  | none => exact hmade
  | some p => exact hmade.adopt (lt_of_locate hp) ⟨ha.pos, ha.lt⟩

theorem Made.edit (hg : Made g) : ∀ e : Edit, Made (g.edit e).1
  | .getOrAdd v => hg.getOrAdd v
  | .attach parent v => hg.attach parent v

-- =============================================================== all calls

theorem Made.editAll (hg : Made g) (edits : List Edit) :
    Made (g.editAll edits) := by
  induction edits generalizing g with
  | nil => exact hg
  | cons e edits ih => exact ih (hg.edit e)

/-- Whatever the calls, those that failed included. -/
theorem made_editAll (root : Bytes) (edits : List Edit) :
    Made ((ofRoot root).editAll edits) :=
  (made_ofRoot root).editAll edits

end XorSpan.Graph
