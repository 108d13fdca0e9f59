/-
The comparison of values as data (`same`), against what their canonical
texts tell. Two values are the same as data exactly if they agree once
each truth value in them is read as the number that it counts as
(`same_iff`). So values that agree are the same (`equal_of_agree`), and
what the comparison takes for equal and the texts do not is a truth value
in one where the other has its number.

In a dictionary every entry of the one is looked up in the other. As no
key stands twice and both have as many, no entry of the other is left
over (`forall_partner_iff`).
-/
import Mathlib.Data.List.Perm.Subperm
import XorSpan.Proofs.Json.Agreement

namespace XorSpan.Json

variable {a b v w : Json} {s : String} {n : Int} {items items' : List Json}
  {entries entries' : List (String × Json)} {R S : Json → Json → Prop}

-- ================================================================ reading

mutual

/-- The value with each truth value in it as the number that it counts
as. -/
def counted : Json → Json
  | .null => .null
  | .bool b => .int (if b then 1 else 0)
  | .int n => .int n
  | .str s => .str s
  | .list items => .list (countedItems items)
  | .dict entries => .dict (countedEntries entries)

def countedItems : List Json → List Json
  | [] => []
  | item :: items => counted item :: countedItems items

def countedEntries : List (String × Json) → List (String × Json)
  | [] => []
  | (k, v) :: entries => (k, counted v) :: countedEntries entries

end

/-- The entry with its value so read. -/
def countedEntry (e : String × Json) : String × Json := (e.1, e.2.counted)

/-- The items of a list are counted one by one. -/
theorem countedItems_eq_map (items : List Json) :
    countedItems items = items.map counted := by
  induction items with
  | nil => rw [countedItems, List.map_nil]
  | cons v items ih => rw [countedItems, ih, List.map_cons]

/-- So are the entries of a dictionary, each under its own key. -/
theorem countedEntries_eq_map (entries : List (String × Json)) :
    countedEntries entries = entries.map countedEntry := by
  induction entries with
  | nil => rw [countedEntries, List.map_nil]
  | cons e entries ih =>
    obtain ⟨k, v⟩ := e
    rw [countedEntries, ih, List.map_cons]
    rfl

/-- A list of values is counted item by item, so truth values inside
it become numbers as well. -/
theorem counted_list (items : List Json) :
    counted (.list items) = .list (items.map counted) := by
  rw [counted, countedItems_eq_map]

/-- And a dictionary is counted entry by entry. -/
theorem counted_dict (entries : List (String × Json)) :
    counted (.dict entries) = .dict (entries.map countedEntry) := by
  rw [counted, countedEntries_eq_map]

/-- The keys stay as they are: they are text, and no text counts as a
number. -/
theorem map_fst_countedEntry (entries : List (String × Json)) :
    (entries.map countedEntry).map Prod.fst = entries.map Prod.fst :=
  List.map_map

/-- The values are counted, in the order of their keys. -/
theorem map_snd_countedEntry (entries : List (String × Json)) :
    (entries.map countedEntry).map Prod.snd =
      (entries.map Prod.snd).map counted := by
  rw [List.map_map, List.map_map]
  rfl

/-- So what is found under a key is what was found there, counted. It
does not matter whether one looks first or counts first. -/
theorem lookup_countedEntry (entries : List (String × Json)) (k : String) :
    (entries.map countedEntry).lookup k = (entries.lookup k).map counted := by
  induction entries with
  | nil => rfl
  | cons e entries ih =>
    obtain ⟨j, w⟩ := e
    show List.lookup k ((j, w.counted) :: entries.map countedEntry) = _
    rw [List.lookup_cons, List.lookup_cons]
    cases k == j with
    | true => rfl
    | false => exact ih

theorem counted_eq_null_iff : v.counted = .null ↔ v = .null := by
  cases v <;> simp [counted]

/-- Text counts as itself and as nothing else, so a value counts as a
text only if it is that text. -/
theorem counted_eq_str_iff : v.counted = .str s ↔ v = .str s := by
  cases v <;> simp [counted]

/-- A value counts as a number if it is that number or the truth value
that stands for it. -/
theorem counted_eq_int_iff : v.counted = .int n ↔ v.number? = some n := by
  cases v <;> simp [counted, number?]

-- ================================================================ equality

/-- Values without parts. -/
inductive Leaf : Json → Prop where
  | null : Leaf .null
  | bool (b : Bool) : Leaf (.bool b)
  | int (n : Int) : Leaf (.int n)
  | str (s : String) : Leaf (.str s)

/-- A value without parts agrees with itself. -/
theorem Leaf.agree_self (h : Leaf v) : Agree v v := by
  cases h <;> constructor

/-- What agrees with a value without parts is that value. Such values
are null, texts, numbers and truth values. -/
theorem Leaf.agree_iff (h : Leaf v) : Agree v w ↔ w = v := by
  constructor
  · intro hagree
    cases h <;> cases hagree <;> rfl
  · intro heq
    rw [heq]
    exact h.agree_self

/-- The same from the other side: what a value without parts agrees
with is that value. -/
theorem Leaf.agree_iff' (h : Leaf v) : Agree w v ↔ w = v := by
  constructor
  · intro hagree
    cases h <;> cases hagree <;> rfl
  · intro heq
    rw [heq]
    exact h.agree_self

/-- The values are equal as data: truth values count as numbers, the
order of entries does not count. -/
def Equal (a b : Json) : Prop := Agree a.counted b.counted

/-- Nothing but null is equal to null. -/
theorem null_equal_iff : Equal .null v ↔ v = .null := by
  unfold Equal
  rw [counted, Leaf.null.agree_iff, counted_eq_null_iff]

theorem str_equal_iff : Equal (.str s) v ↔ v = .str s := by
  unfold Equal
  rw [counted, (Leaf.str s).agree_iff, counted_eq_str_iff]

/-- The same with the text on the other side. -/
theorem equal_str_iff : Equal v (.str s) ↔ v = .str s := by
  unfold Equal
  rw [counted, (Leaf.str s).agree_iff', counted_eq_str_iff]

/-- What counts as a number is equal to what counts as that number. So
a truth value is equal to the number it stands for. -/
theorem equal_iff_number? (hn : a.number? = some n) :
    Equal a b ↔ b.number? = some n := by
  unfold Equal
  rw [counted_eq_int_iff.2 hn, (Leaf.int n).agree_iff, counted_eq_int_iff]

/-- Lists are equal item by item, so they have the same length and
their order counts. -/
theorem equal_list_iff :
    Equal (.list items) (.list items') ↔ List.Forall₂ Equal items items' := by
  unfold Equal
  rw [counted_list, counted_list]
  constructor
  · intro h
    cases h with
    | list pairs =>
      rwa [List.forall₂_map_left_iff, List.forall₂_map_right_iff] at pairs
  · intro h
    apply Agree.list
    rwa [List.forall₂_map_left_iff, List.forall₂_map_right_iff]

/-- Dictionaries are equal if under every key they have equal values,
or both have none; the order of the entries does not count. It needs
that no key comes twice. -/
theorem equal_dict_iff (h : (entries.map Prod.fst).Nodup)
    (h' : (entries'.map Prod.fst).Nodup) :
    Equal (.dict entries) (.dict entries') ↔
      ∀ k, Option.Rel Equal (entries.lookup k) (entries'.lookup k) := by
  unfold Equal
  rw [counted_dict, counted_dict, agree_dict_iff (by rwa [map_fst_countedEntry])
    (by rwa [map_fst_countedEntry])]
  refine forall_congr' fun k => ?_
  rw [lookup_countedEntry, lookup_countedEntry]
  cases entries.lookup k <;> cases entries'.lookup k <;> simp

theorem forall₂_of_mem {as bs : List Json}
    (h : ∀ a ∈ as, ∀ b ∈ bs, R a b → S a b)
    (hpairs : List.Forall₂ R as bs) : List.Forall₂ S as bs := by
  induction hpairs with
  | nil => exact .nil
  | cons hab _ ih =>
    refine .cons (h _ (List.mem_cons_self ..) _ (List.mem_cons_self ..) hab)
      (ih ?_)
    intro a ha b hb
    exact h a (List.mem_cons_of_mem _ ha) b (List.mem_cons_of_mem _ hb)

/-- Values that agree are equal as data. The other way round it fails
for truth values and numbers only. -/
theorem equal_of_agree : ∀ a b : Json, Agree a b → Equal a b := by
  intro a
  induction a using induction with
  | null | bool | int | str =>
    intro b h
    cases h
    unfold Equal
    rw [counted]
    constructor
  | list items ih =>
    intro b h
    cases h with
    | @list _ bs pairs =>
      rw [equal_list_iff]
      exact forall₂_of_mem (fun x hx y _ => ih x hx y) pairs
  | dict entries ih =>
    intro b h
    cases h with
    | @dict _ entries' es es' left right keys values =>
      unfold Equal
      rw [counted_dict, counted_dict]
      refine .dict (left.map _) (right.map _) ?_ ?_
      · rw [map_fst_countedEntry, map_fst_countedEntry, keys]
      · rw [map_snd_countedEntry, map_snd_countedEntry,
          List.forall₂_map_left_iff, List.forall₂_map_right_iff]
        refine forall₂_of_mem ?_ values
        intro v hv w _
        obtain ⟨e, he, rfl⟩ := List.mem_map.1 hv
        exact ih e (left.mem_iff.2 he) w

-- ============================================================== comparing

/-- The comparison goes through two lists in step, and lists of
different lengths are not the same. -/
theorem sameItems_iff :
    sameItems items items' = true ↔
    List.Forall₂ (fun a b => a.same b = true) items items' := by
  induction items generalizing items' with
  | nil => cases items' <;> simp [sameItems]
  | cons a items ih =>
    cases items' with
    | nil => simp [sameItems]
    | cons b items' => rw [sameItems, Bool.and_eq_true, List.forall₂_cons, ih]

/-- Every entry has a partner under its key. It does not look for
entries that only the other side has; that is what their numbers are
compared for. -/
theorem sameEntries_iff : sameEntries entries entries' = true ↔
    ∀ e ∈ entries, ∃ w, entries'.lookup e.1 = some w ∧ e.2.same w = true := by
  induction entries with
  | nil => simp [sameEntries]
  | cons e entries ih =>
    rw [sameEntries, Bool.and_eq_true, List.forall_mem_cons, ih]
    cases entries'.lookup e.1 with
    | none => simp
    | some w => simp

/-- Related, two lookups both find something or both find nothing. -/
theorem eq_none_iff_of_rel {x y : Option Json} (h : Option.Rel R x y) :
    x = none ↔ y = none := by
  cases h <;> simp

/-- What is related to something that is there is there as well. -/
theorem rel_some_iff {y : Option Json} :
    Option.Rel R (some v) y ↔ ∃ w, y = some w ∧ R v w := by
  cases y <;> simp

/-- With as many entries on both sides, partners for all of one side
are partners for all of the other. -/
theorem forall_partner_iff (h : (entries.map Prod.fst).Nodup)
    (h' : (entries'.map Prod.fst).Nodup) :
    (entries.length = entries'.length ∧
      ∀ e ∈ entries, ∃ w, entries'.lookup e.1 = some w ∧ R e.2 w) ↔
        ∀ k, Option.Rel R (entries.lookup k) (entries'.lookup k) := by
  constructor
  · intro hall
    obtain ⟨hlength, hpartner⟩ := hall
    have hsub : entries.map Prod.fst ⊆ entries'.map Prod.fst := by
      intro k hk
      obtain ⟨e, he, rfl⟩ := List.mem_map.1 hk
      obtain ⟨w, hw, -⟩ := hpartner e he
      exact List.mem_map.2 ⟨_, (lookup_eq_some_iff h').1 hw, rfl⟩
    have hperm : (entries.map Prod.fst).Perm (entries'.map Prod.fst) :=
      (List.subperm_of_subset h hsub).perm_of_length_le (by simp [hlength])
    intro k
    cases hk : entries.lookup k with
    | some v =>
      exact rel_some_iff.2 (hpartner (k, v) ((lookup_eq_some_iff h).1 hk))
    | none =>
      have hnone : entries'.lookup k = none := by
        rw [lookup_eq_none_iff_not_mem, ← hperm.mem_iff,
          ← lookup_eq_none_iff_not_mem, hk]
      rw [hnone]
      exact .none
  · intro hall
    have hperm : (entries.map Prod.fst).Perm (entries'.map Prod.fst) := by
      rw [List.perm_ext_iff_of_nodup h h']
      intro k
      rw [← not_iff_not, ← lookup_eq_none_iff_not_mem,
        ← lookup_eq_none_iff_not_mem]
      exact eq_none_iff_of_rel (hall k)
    refine ⟨by simpa using hperm.length_eq, ?_⟩
    intro e he
    have hk := hall e.1
    rw [(lookup_eq_some_iff h).2 he] at hk
    exact rel_some_iff.1 hk

/-- What counts as a number is the same as what counts as that number.
The comparison looks at numbers before it looks at kinds. -/
theorem same_iff_number? (hn : a.number? = some n) :
    a.same b = true ↔ b.number? = some n := by
  cases a with
  | bool x | int m =>
    cases hn
    cases b with
    | bool y | int m' =>
      simp only [same, number?, beq_iff_eq, Option.some.injEq]
      exact eq_comm
    | _ => simp [same, number?]
  | _ => cases hn

/-- The comparison decides equality as data, where no dictionary has a
key twice. -/
theorem same_iff : ∀ {a b : Json}, DistinctKeys a → DistinctKeys b →
    (a.same b = true ↔ Equal a b) := by
  intro a
  induction a using induction with
  | null =>
    intro b _ _
    rw [null_equal_iff]
    cases b <;> simp [same, number?]
  | bool x | int n =>
    intro b _ _
    rw [same_iff_number? rfl, equal_iff_number? rfl]
  | str s =>
    intro b _ _
    rw [str_equal_iff]
    cases b with
    | str t =>
      simp only [same, beq_iff_eq, str.injEq]
      exact eq_comm
    | _ => simp [same, number?]
  | list items ih =>
    intro b ha hb
    cases b with
    | list items' =>
      cases ha with
      | list ha =>
        cases hb with
        | list hb =>
          rw [same, sameItems_iff, equal_list_iff]
          constructor
          · exact forall₂_of_mem fun x hx y hy =>
              (ih x hx (ha x hx) (hb y hy)).1
          · exact forall₂_of_mem fun x hx y hy =>
              (ih x hx (ha x hx) (hb y hy)).2
    | _ => exact iff_of_false (by simp [same, number?]) (fun h => by cases h)
  | dict entries ih =>
    intro b ha hb
    cases b with
    | dict entries' =>
      cases ha with
      | dict nodup ha =>
        cases hb with
        | dict nodup' hb =>
          rw [same, Bool.and_eq_true, beq_iff_eq, sameEntries_iff,
            equal_dict_iff nodup nodup', ← forall_partner_iff nodup nodup']
          refine and_congr_right fun _ => forall₂_congr fun e he =>
            exists_congr fun w => ?_
          refine and_congr_right fun hw => ih e he (ha e he) ?_
          exact hb (e.1, w) ((lookup_eq_some_iff nodup').1 hw)
    | _ => exact iff_of_false (by simp [same, number?]) (fun h => by cases h)

-- truth values are numbers here, and entries are in any order
example : same (.dict [("a", .int 1), ("b", .bool false)])
    (.dict [("b", .int 0), ("a", .bool true)]) = true := by decide

end XorSpan.Json
