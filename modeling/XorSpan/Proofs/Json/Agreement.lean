/-
When two stored values are the same but for the order in which their
dictionaries were written. Unlike `Json.same`, agreement keeps truth
values and numbers apart; it is what the canonical text tells
(`Json/Canonical.lean`).

Dictionaries agree if their entries can be put in orders in which the
keys are equal and the values agree one by one. Where no key stands twice
that is to say that they agree as mappings: under every key, both have a
value and the two agree, or neither has one (`agree_dict_iff`).
-/
import Mathlib.Data.List.Forall2
import Mathlib.Data.List.Nodup
import Mathlib.Data.Option.Basic
import XorSpan.Json.Basic

namespace XorSpan.Json

variable {α β : Type} {k : String} {as bs entries : List (String × Json)}

-- ============================================================ definitions

/-- No dictionary in the value has a key twice. -/
inductive DistinctKeys : Json → Prop where
  | null : DistinctKeys .null
  | bool (b : Bool) : DistinctKeys (.bool b)
  | int (n : Int) : DistinctKeys (.int n)
  | str (s : String) : DistinctKeys (.str s)
  | list {items : List Json} (items_distinct : ∀ v ∈ items, DistinctKeys v) :
      DistinctKeys (.list items)
  | dict {entries : List (String × Json)} (nodup : (entries.map Prod.fst).Nodup)
      (values_distinct : ∀ e ∈ entries,
        DistinctKeys e.2) : DistinctKeys (.dict entries)

/-- The values are equal up to the order of dictionary entries, at
every depth. -/
inductive Agree : Json → Json → Prop where
  | null : Agree .null .null
  | bool (b : Bool) : Agree (.bool b) (.bool b)
  | int (n : Int) : Agree (.int n) (.int n)
  | str (s : String) : Agree (.str s) (.str s)
  | list {as bs : List Json} (items : List.Forall₂ Agree as bs) :
      Agree (.list as) (.list bs)
  | dict {as bs as' bs' : List (String × Json)} (left : as.Perm as')
      (right : bs.Perm bs')
      (keys : as'.map Prod.fst = bs'.map Prod.fst)
      (values : List.Forall₂ Agree (as'.map Prod.snd) (bs'.map Prod.snd)) :
      Agree (.dict as) (.dict bs)

/-- What holds of a value if it holds of all its parts holds of all
values. Lean's own principle goes through the lists inside a value,
and this one does not. -/
@[elab_as_elim]
theorem induction {P : Json → Prop} (null : P .null) (bool : ∀ b, P (.bool b))
    (int : ∀ n, P (.int n)) (str : ∀ s, P (.str s))
    (list : ∀ items : List Json, (∀ v ∈ items, P v) → P (.list items))
    (dict : ∀ entries : List (String × Json), (∀ e ∈ entries, P e.2) →
      P (.dict entries)) :
    ∀ v, P v
  | .null => null
  | .bool b => bool b
  | .int n => int n
  | .str s => str s
  | .list items => list items fun v _ => induction null bool int str list dict v
  | .dict entries => dict entries fun e _ =>
      induction null bool int str list dict e.2
termination_by v => sizeOf v
decreasing_by
  · next hv =>
    have hlt := List.sizeOf_lt_of_mem hv
    simp only [Json.list.sizeOf_spec]
    omega
  · next he =>
    have hlt := List.sizeOf_lt_of_mem he
    have hpair : sizeOf e = 1 + sizeOf e.1 + sizeOf e.2 := rfl
    simp only [Json.dict.sizeOf_spec]
    omega

theorem eq_of_agree_str {s t : String} (h : Agree (.str s) (.str t)) :
    s = t := by
  cases h
  rfl

-- =============================================================== in pairs

/-- Two lists of entries, one by one. -/
theorem forall₂_entries_iff {R : α → β → Prop} {as : List (String × α)}
    {bs : List (String × β)} :
    List.Forall₂ (fun e f => e.1 = f.1 ∧ R e.2 f.2) as bs ↔
      as.map Prod.fst = bs.map Prod.fst ∧
      List.Forall₂ R (as.map Prod.snd) (bs.map Prod.snd) := by
  induction as generalizing bs with
  | nil => cases bs <;> simp
  | cons e as ih =>
    cases bs with
    | nil => simp
    | cons f bs =>
      simp only [List.forall₂_cons, List.map_cons, List.cons.injEq, ih]
      tauto

theorem exists_of_forall₂ {R : α → β → Prop} {as : List α} {bs : List β} {a : α}
    (h : List.Forall₂ R as bs) (ha : a ∈ as) : ∃ b ∈ bs, R a b := by
  induction h with
  | nil => cases ha
  | cons hab _ ih =>
    rcases List.mem_cons.1 ha with rfl | ha
    · exact ⟨_, List.mem_cons_self .., hab⟩
    · obtain ⟨b, hb, hr⟩ := ih ha
      exact ⟨b, List.mem_cons_of_mem _ hb, hr⟩

-- ============================================================== mappings

/-- Where no key stands twice, looking up a key finds its entry. So
entries and lookups say the same. -/
theorem lookup_eq_some_iff {entries : List (String × α)} {v : α}
    (h : (entries.map Prod.fst).Nodup) :
    entries.lookup k = some v ↔ (k, v) ∈ entries := by
  induction entries with
  | nil => simp
  | cons e entries ih =>
    obtain ⟨j, w⟩ := e
    obtain ⟨hj, hentries⟩ := List.nodup_cons.1 h
    rw [List.lookup_cons, List.mem_cons]
    by_cases hkj : k = j
    · subst hkj
      have hnot : (k, v) ∉ entries :=
        fun hmem => hj (List.mem_map.2 ⟨_, hmem, rfl⟩)
      simp [hnot, eq_comm]
    · rw [beq_eq_false_iff_ne.2 hkj]
      simp [ih hentries, hkj]

theorem lookup_eq_none_iff_not_mem {entries : List (String × α)} :
    entries.lookup k = none ↔ k ∉ entries.map Prod.fst := by
  rw [List.lookup_eq_none_iff, List.mem_map]
  constructor
  · rintro h ⟨e, he, rfl⟩
    simpa using h e he
  · intro h e he
    have hne : k ≠ e.1 := fun heq => h ⟨e, he, heq.symm⟩
    simpa using hne

/-- Dictionaries without a key twice agree if they do under every key.
That is the form in which a dictionary is compared as a function of
its keys. -/
theorem agree_dict_iff (ha : (as.map Prod.fst).Nodup)
    (hb : (bs.map Prod.fst).Nodup) :
    Agree (.dict as) (.dict bs) ↔
    ∀ k, Option.Rel Agree (as.lookup k) (bs.lookup k) := by
  constructor
  · intro h k
    cases h with
    | @dict _ _ as' bs' left right keys values =>
      have hentries := forall₂_entries_iff.2 ⟨keys, values⟩
      cases hk : as.lookup k with
      | none =>
        have hnot : bs.lookup k = none := by
          rw [lookup_eq_none_iff_not_mem, (right.map Prod.fst).mem_iff, ← keys,
            ← (left.map Prod.fst).mem_iff, ← lookup_eq_none_iff_not_mem]
          exact hk
        rw [hnot]
        exact .none
      | some v =>
        obtain ⟨⟨j, w⟩, hw, hkey, hagree⟩ :=
          exists_of_forall₂ hentries
            (left.mem_iff.1 ((lookup_eq_some_iff ha).1 hk))
        cases hkey
        rw [(lookup_eq_some_iff hb).2 (right.mem_iff.2 hw)]
        exact .some hagree
  · intro h
    -- the second dictionary's entries in the order of the first
    let partner (e : String × Json) : String × Json :=
      (e.1, (bs.lookup e.1).getD .null)
    have hkeys : (as.map partner).map Prod.fst = as.map Prod.fst := by
      rw [List.map_map]
      rfl
    have hpartner : ∀ k v, (k, v) ∈ as → ∃ w,
        partner (k, v) = (k, w) ∧ (k, w) ∈ bs ∧ Agree v w := by
      intro k v hv
      have hrel := h k
      rw [(lookup_eq_some_iff ha).2 hv] at hrel
      generalize hw : bs.lookup k = found at hrel
      cases hrel with
      | @some _ w hagree =>
        refine ⟨w, ?_, (lookup_eq_some_iff hb).1 hw, hagree⟩
        show (k, (bs.lookup k).getD .null) = _
        rw [hw]
        rfl
    have hperm : bs.Perm (as.map partner) := by
      refine (List.perm_ext_iff_of_nodup (.of_map _ hb)
        (.of_map Prod.fst ?_)).2 ?_
      · rw [hkeys]
        exact ha
      · rintro ⟨k, w⟩
        rw [List.mem_map]
        constructor
        · intro hw
          have hrel := h k
          rw [(lookup_eq_some_iff hb).2 hw] at hrel
          generalize hv : as.lookup k = found at hrel
          cases hrel with
          | @some v _ _ =>
            have hmem : (k, v) ∈ as := (lookup_eq_some_iff ha).1 hv
            obtain ⟨w', hw', hin, -⟩ := hpartner k v hmem
            refine ⟨(k, v), hmem, ?_⟩
            rw [hw', List.inj_on_of_nodup_map hb hin hw rfl]
        · rintro ⟨⟨j, v⟩, hv, hp⟩
          obtain ⟨w', hw', hin, -⟩ := hpartner j v hv
          rw [← hp, hw']
          exact hin
    refine .dict (.refl as) hperm hkeys.symm ?_
    rw [List.map_map, List.forall₂_map_left_iff, List.forall₂_map_right_iff,
      List.forall₂_same]
    rintro ⟨k, v⟩ hv
    obtain ⟨w, hw, -, hagree⟩ := hpartner k v hv
    show Agree v (partner (k, v)).2
    rw [hw]
    exact hagree

end XorSpan.Json
