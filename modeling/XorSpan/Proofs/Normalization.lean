/-
Which data a receipt takes, and as what. A datum can be stored exactly if
nothing forbidden stands in it at any depth: a fraction, a kind of datum
that receipts do not know, a dictionary key that is not a string. What is
stored is stored as it is when it is offered again. And it does not show
in which of its forms a datum came: bytes, bytes that may still change
and their hex text are stored alike, and so are tuples and lists
(`Recast`).

`normalize` runs through items and entries along with the data they are
part of, so each fact is proved of the three together.
-/
import XorSpan.Proofs.Digests

namespace XorSpan

namespace Datum

open Json

variable {path : String} {part x y : Datum} {items items' : List Datum}
  {entries entries' : List (Datum × Datum)}

-- ============================================================== forbidden

/-- The part stands somewhere in a datum, or is all of it. -/
inductive Within (part : Datum) : Datum → Prop where
  | whole : Within part part
  | item {items : List Datum} {x : Datum} (mem : x ∈ items)
      (inside : Within part x) :
      Within part (.list items)
  | member {items : List Datum} {x : Datum} (mem : x ∈ items)
      (inside : Within part x) :
      Within part (.tuple items)
  | value {entries : List (Datum × Datum)} {e : Datum × Datum}
      (mem : e ∈ entries)
      (inside : Within part e.2) : Within part (.dict entries)

/-- The datum itself, whatever its parts are, is nothing to be stored. -/
inductive Forbidden : Datum → Prop where
  | float (x : Float) : Forbidden (.float x)
  | view (b : Bytes) : Forbidden (.view b)
  | other (kind : String) : Forbidden (.other kind)
  | key {entries : List (Datum × Datum)} {e : Datum × Datum} (mem : e ∈ entries)
      (foreign : ∀ k, e.1 ≠ .str k) : Forbidden (.dict entries)

/-- Nothing forbidden stands in the datum. -/
def Clean (x : Datum) : Prop := ∀ part, Within part x → ¬Forbidden part

/-- A datum whose parts are itself and those of its items is as clean
as its items, if there is nothing against the datum itself. -/
theorem clean_iff_of_parts (hallowed : ¬Forbidden x)
    (hparts : ∀ part, Within part x →
      part = x ∨ ∃ y ∈ items, Within part y)
    (hitems : ∀ part, ∀ y ∈ items, Within part y → Within part x) :
    Clean x ↔ ∀ y ∈ items, Clean y := by
  constructor
  · intro h y hy part hpart
    exact h part (hitems part y hy hpart)
  · intro h part hpart
    rcases hparts part hpart with rfl | ⟨y, hy, hinside⟩
    · exact hallowed
    · exact h y hy part hinside

/-- Lists are never forbidden for their own sake, only for an item.
What stands inside an item stands inside the list. -/
theorem clean_list_iff : Clean (.list items) ↔ ∀ x ∈ items, Clean x := by
  refine clean_iff_of_parts (fun h => nomatch h) (fun part hpart => ?_)
    fun part y hy => .item hy
  cases hpart with
  | whole => exact .inl rfl
  | item mem inside => exact .inr ⟨_, mem, inside⟩

/-- Neither are tuples, which receipts store as lists: a part is
inside the one exactly if it is inside the other. -/
theorem clean_tuple_iff : Clean (.tuple items) ↔ ∀ x ∈ items, Clean x := by
  refine clean_iff_of_parts (fun h => nomatch h) (fun part hpart => ?_)
    fun part y hy => .member hy
  cases hpart with
  | whole => exact .inl rfl
  | member mem inside => exact .inr ⟨_, mem, inside⟩

/-- Every entry has a string for its key, and a value without anything
forbidden. -/
def CleanEntries (entries : List (Datum × Datum)) : Prop :=
  ∀ e ∈ entries, (∃ k, e.1 = .str k) ∧ Clean e.2

theorem clean_dict_iff : Clean (.dict entries) ↔ CleanEntries entries := by
  constructor
  · intro h e he
    refine ⟨?_, fun part hpart => h part (.value he hpart)⟩
    by_contra hforeign
    exact h _ .whole (.key he fun k hk => hforeign ⟨k, hk⟩)
  · intro h part hpart hforbidden
    cases hpart with
    | whole =>
      cases hforbidden with
      | key mem foreign =>
        obtain ⟨k, hk⟩ := (h _ mem).1
        exact foreign k hk
    | value mem inside => exact (h _ mem).2 part inside hforbidden

theorem exists_normalize_list_iff : (∃ v, (list items).normalize path = .ok v) ↔
    ∃ vs, normalizeItems path 0 items = .ok vs := by
  constructor
  · intro h
    obtain ⟨v, hv⟩ := h
    obtain ⟨vs, hvs, -⟩ := normalize_list_eq_ok_iff.1 hv
    exact ⟨vs, hvs⟩
  · intro h
    obtain ⟨vs, hvs⟩ := h
    exact ⟨_, normalize_list_eq_ok_iff.2 ⟨vs, hvs, rfl⟩⟩

theorem exists_normalize_dict_iff :
    (∃ v, (dict entries).normalize path = .ok v) ↔
    ∃ vs, normalizeEntries path [] entries = .ok vs := by
  constructor
  · intro h
    obtain ⟨v, hv⟩ := h
    obtain ⟨vs, hvs, -⟩ := normalize_dict_eq_ok_iff.1 hv
    exact ⟨vs, hvs⟩
  · intro h
    obtain ⟨vs, hvs⟩ := h
    exact ⟨_, normalize_dict_eq_ok_iff.2 ⟨vs, hvs, rfl⟩⟩

mutual

/-- A datum can be stored exactly if nothing forbidden stands in it.
The proof goes along the datum; lists and dictionaries are taken with
their items and entries. -/
theorem exists_normalize_iff (path : String) :
    ∀ x : Datum, (∃ v, x.normalize path = .ok v) ↔ Clean x
  | .null | .bool _ | .int _ | .str _ | .bytes _ | .buffer _ => by
      refine ⟨fun _ part hpart hforbidden => ?_, fun _ => ⟨_, rfl⟩⟩
      cases hpart
      cases hforbidden
  | .float x =>
      ⟨fun ⟨_, h⟩ => (nomatch h), fun h => absurd (.float x) (h _ .whole)⟩
  | .view b =>
      ⟨fun ⟨_, h⟩ => (nomatch h), fun h => absurd (.view b) (h _ .whole)⟩
  | .other kind =>
      ⟨fun ⟨_, h⟩ => (nomatch h), fun h => absurd (.other kind) (h _ .whole)⟩
  | .list items => by
      rw [clean_list_iff, ← exists_normalizeItems_iff path 0 items,
        exists_normalize_list_iff]
  | .tuple items => by
      rw [clean_tuple_iff, ← exists_normalizeItems_iff path 0 items,
        ← exists_normalize_list_iff, normalize_tuple]
  | .dict entries => by
      rw [clean_dict_iff, ← exists_normalizeEntries_iff path [] entries,
        exists_normalize_dict_iff]

/-- Items can be stored if every one of them is clean, wherever in the
list and under whatever path. -/
theorem exists_normalizeItems_iff (path : String) (index : Nat) :
    ∀ items : List Datum, (∃ vs, normalizeItems path index items = .ok vs) ↔
    ∀ x ∈ items, Clean x
  | [] => ⟨fun _ _ hx => (nomatch hx), fun _ => ⟨[], rfl⟩⟩
  | x :: items => by
      rw [List.forall_mem_cons, ← exists_normalize_iff s!"{path}[{index}]" x,
        ← exists_normalizeItems_iff path (index + 1) items]
      simp only [normalizeItems_cons_eq_ok_iff]
      constructor
      · intro h
        obtain ⟨_, w, hw, ws, hws, -⟩ := h
        exact ⟨⟨w, hw⟩, ws, hws⟩
      · intro h
        obtain ⟨⟨w, hw⟩, ws, hws⟩ := h
        exact ⟨_, w, hw, ws, hws, rfl⟩

/-- Entries can be stored if their keys are texts and their values
clean, whatever has been stored before them. -/
theorem exists_normalizeEntries_iff (path : String)
    (stored : List (String × Json)) :
    ∀ entries : List (Datum × Datum),
      (∃ vs, normalizeEntries path stored entries = .ok vs) ↔
      CleanEntries entries
  | [] => ⟨fun _ _ he => (nomatch he), fun _ => ⟨stored, rfl⟩⟩
  | (key, x) :: entries => by
      unfold CleanEntries
      rw [List.forall_mem_cons]
      cases key with
      | str k =>
        constructor
        · intro h
          obtain ⟨vs, hvs⟩ := h
          obtain ⟨w, hw, hrest⟩ := normalizeEntries_cons_eq_ok_iff.1 hvs
          exact ⟨⟨⟨k, rfl⟩, (exists_normalize_iff _ x).1 ⟨w, hw⟩⟩,
            (exists_normalizeEntries_iff path _ entries).1 ⟨vs, hrest⟩⟩
        · intro h
          obtain ⟨⟨-, hx⟩, hentries⟩ := h
          obtain ⟨w, hw⟩ := (exists_normalize_iff s!"{path}.{k}" x).2 hx
          obtain ⟨vs, hvs⟩ :=
            (exists_normalizeEntries_iff path (Json.put k w stored)
              entries).2 hentries
          exact ⟨vs, normalizeEntries_cons_eq_ok_iff.2 ⟨w, hw, hvs⟩⟩
      | _ =>
        exact ⟨fun ⟨_, h⟩ => (nomatch h), fun ⟨⟨⟨_, hk⟩, _⟩, _⟩ => (nomatch hk)⟩

end

-- ========================================================== stored already

/-- A new key goes to the end. -/
theorem put_of_not_mem {k : String} {v : Json} {stored : List (String × Json)}
    (h : k ∉ stored.map Prod.fst) :
    Json.put k v stored = stored ++ [(k, v)] := by
  induction stored with
  | nil => rfl
  | cons e stored ih =>
    rw [List.map_cons, List.mem_cons, not_or] at h
    rw [Json.put, if_neg (Ne.symm h.1), ih h.2]
    rfl

/-- Items that are stored as themselves make a list that is. -/
theorem normalizeItems_ofItems {vs : List Json} (index : Nat)
    (h : ∀ v ∈ vs, ∀ path, (ofJson v).normalize path = .ok v) :
    normalizeItems path index (ofItems vs) = .ok vs := by
  induction vs generalizing index with
  | nil => rfl
  | cons v vs ih =>
    obtain ⟨hv, hvs⟩ := List.forall_mem_cons.1 h
    rw [ofItems]
    exact normalizeItems_cons_eq_ok_iff.2 ⟨v, hv _, vs, ih (index + 1) hvs, rfl⟩

/-- Entries are stored behind those before them, as long as their keys
are new. -/
theorem normalizeEntries_ofEntries {vs stored : List (String × Json)}
    (h : ∀ e ∈ vs, ∀ path, (ofJson e.2).normalize path = .ok e.2)
    (hnodup : ((stored ++ vs).map Prod.fst).Nodup) :
    normalizeEntries path stored (ofEntries vs) = .ok (stored ++ vs) := by
  induction vs generalizing stored with
  | nil => rw [ofEntries, normalizeEntries, List.append_nil]
  | cons e vs ih =>
    obtain ⟨k, v⟩ := e
    obtain ⟨hv, hvs⟩ := List.forall_mem_cons.1 h
    have hassoc : stored ++ (k, v) :: vs = stored ++ [(k, v)] ++ vs := by
      rw [List.append_assoc, List.singleton_append]
    have hnew : k ∉ stored.map Prod.fst := by
      intro hk
      rw [List.map_append, List.map_cons] at hnodup
      exact (List.nodup_append.1 hnodup).2.2 k hk k (List.mem_cons_self ..) rfl
    rw [hassoc] at hnodup ⊢
    rw [ofEntries]
    refine normalizeEntries_cons_eq_ok_iff.2 ⟨v, hv _, ?_⟩
    rw [put_of_not_mem hnew]
    exact ih hvs hnodup

/-- What is stored is stored as it is. It needs that no key stands
twice, as the second would replace the first. -/
theorem normalize_ofJson {v : Json} (h : DistinctKeys v) (path : String) :
    (ofJson v).normalize path = .ok v := by
  induction v using Json.induction generalizing path with
  | null | bool | int | str => rfl
  | list vs ih =>
    cases h with
    | list items_distinct =>
      rw [ofJson]
      exact normalize_list_eq_ok_iff.2
        ⟨vs, normalizeItems_ofItems 0
          fun v hv => ih v hv (items_distinct v hv), rfl⟩
  | dict vs ih =>
    cases h with
    | dict nodup values_distinct =>
      rw [ofJson]
      exact normalize_dict_eq_ok_iff.2 ⟨vs, normalizeEntries_ofEntries
        (fun e he => ih e he (values_distinct e he)) nodup, rfl⟩

-- ============================================================ other forms

/-- The second datum is the first with some of the bytes in it
replaced by the same bytes in a form that may still change or by their
hex text, and some of the tuples by lists, at any depth. -/
inductive Recast : Datum → Datum → Prop where
  | refl (x : Datum) : Recast x x
  | buffer (b : Bytes) : Recast (.bytes b) (.buffer b)
  | text (b : Bytes) : Recast (.bytes b) (.str b.toHex)
  | list {items items' : List Datum}
      (pairs : List.Forall₂ Recast items items') :
      Recast (.list items) (.list items')
  | tuple {items items' : List Datum}
      (pairs : List.Forall₂ Recast items items') :
      Recast (.tuple items) (.tuple items')
  | untupled {items items' : List Datum}
      (pairs : List.Forall₂ Recast items items') :
      Recast (.tuple items) (.list items')
  | dict {entries entries' : List (Datum × Datum)}
      (keys : List.Forall₂ Recast (entries.map Prod.fst)
        (entries'.map Prod.fst))
      (values : List.Forall₂ Recast (entries.map Prod.snd)
        (entries'.map Prod.snd)) :
      Recast (.dict entries) (.dict entries')

mutual

/-- Whatever form its parts are in, a datum is stored as the same:
bytes as their hex text and tuples as lists, so putting these in their
place beforehand changes nothing. -/
theorem normalize_of_recast (path : String) :
    ∀ (x y : Datum) (v : Json), Recast x y →
    x.normalize path = .ok v → y.normalize path = .ok v
  | .null, _, _, .refl _, hx | .bool _, _, _, .refl _, hx | .int _,
  _, _, .refl _, hx
  | .str _, _, _, .refl _, hx | .buffer _, _, _, .refl _, hx | .bytes _,
      _, _, .refl _, hx
  | .bytes _, _, _, .buffer _, hx | .bytes _, _, _, .text _, hx => hx
  | .list items, y, v, h, hx => by
      obtain ⟨vs, hvs, rfl⟩ := normalize_list_eq_ok_iff.1 hx
      cases h with
      | refl => exact hx
      | list pairs =>
        exact normalize_list_eq_ok_iff.2
          ⟨vs, normalizeItems_of_recast path 0 items _ vs pairs hvs, rfl⟩
  | .tuple items, y, v, h, hx => by
      rw [normalize_tuple] at hx
      obtain ⟨vs, hvs, rfl⟩ := normalize_list_eq_ok_iff.1 hx
      cases h with
      | refl => rw [normalize_tuple, hx]
      | tuple pairs =>
        rw [normalize_tuple]
        exact normalize_list_eq_ok_iff.2
          ⟨vs, normalizeItems_of_recast path 0 items _ vs pairs hvs, rfl⟩
      | untupled pairs =>
        exact normalize_list_eq_ok_iff.2
          ⟨vs, normalizeItems_of_recast path 0 items _ vs pairs hvs, rfl⟩
  | .dict entries, y, v, h, hx => by
      obtain ⟨vs, hvs, rfl⟩ := normalize_dict_eq_ok_iff.1 hx
      cases h with
      | refl => exact hx
      | dict keys values =>
        exact normalize_dict_eq_ok_iff.2
          ⟨vs, normalizeEntries_of_recast path [] entries _ vs keys values hvs,
            rfl⟩

/-- The items of a list in other forms are stored alike, -/
theorem normalizeItems_of_recast (path : String) (index : Nat) :
    ∀ (items items' : List Datum)
    (vs : List Json), List.Forall₂ Recast items items' →
      normalizeItems path index items = .ok vs →
      normalizeItems path index items' = .ok vs
  | [], _, _, .nil, hvs => hvs
  | x :: items, _, vs, .cons hxy pairs, hvs => by
      obtain ⟨w, hw, ws, hws, rfl⟩ := normalizeItems_cons_eq_ok_iff.1 hvs
      exact normalizeItems_cons_eq_ok_iff.2 ⟨w,
        normalize_of_recast _ x _ w hxy hw, ws,
        normalizeItems_of_recast path (index + 1) items _ ws pairs hws, rfl⟩

/-- and so are the entries of a dictionary, keys and values. -/
theorem normalizeEntries_of_recast (path : String)
    (stored : List (String × Json)) :
    ∀ (entries entries' : List (Datum × Datum)) (vs : List (String × Json)),
      List.Forall₂ Recast (entries.map Prod.fst) (entries'.map Prod.fst) →
      List.Forall₂ Recast (entries.map Prod.snd) (entries'.map Prod.snd) →
      normalizeEntries path stored entries = .ok vs →
        normalizeEntries path stored entries' = .ok vs
  | [], [], _, _, _, hvs => hvs
  | (key, x) :: entries, (key', y) :: entries', vs, .cons hkey keys,
      .cons hxy values, hvs => by
      cases key with
      | str k =>
        -- a string has no other form
        cases hkey with
        | refl =>
          obtain ⟨w, hw, hrest⟩ := normalizeEntries_cons_eq_ok_iff.1 hvs
          exact normalizeEntries_cons_eq_ok_iff.2 ⟨w,
            normalize_of_recast _ x y w hxy hw,
            normalizeEntries_of_recast path _ entries entries' vs
              keys values hrest⟩
      | _ => cases hvs

end

end Datum

-- ================================================================ writing

namespace Receipt

open Datum

variable {r r' : Receipt} {key : String} {value : Datum}

/-- Under a new key, what is written is the stored form of the datum.
So there is one thing that can be written, or nothing. -/
theorem run_put_eq_ok_iff (h : key ∉ r.keys) :
    (put key value).run r = .ok () r' ↔
    ∃ v, value.normalize key = .ok v ∧ r' = r.add key v := by
  constructor
  · intro hrun
    have hput : Putting r key value (.ok () r') := hrun ▸ putting r key value
    cases hput with
    | stored _ normal => exact ⟨_, normal, rfl⟩
  · intro h
    obtain ⟨v, hv, rfl⟩ := h
    exact run_put_of_new h hv

/-- Under a new key, a datum is taken exactly if nothing forbidden
stands in it at any depth. It is stored in a form that is stored as it
is when offered again, and in the same form if some of the bytes and
tuples in it are offered in their other forms, so that receipt and
digest are the same. -/
theorem put_outcome (r : Receipt) (key : String) (x : Datum)
    (hkey : key ∉ r.keys) :
    ((∃ r', (put key x).run r = .ok () r') ↔ ∀ part, Within part x →
      ¬Forbidden part) ∧
      ∀ r', (put key x).run r = .ok () r' →
        ∃ v, x.normalize key = .ok v ∧ r' = r.add key v ∧
          (∀ path, (ofJson v).normalize path = .ok v) ∧
          ∀ y, Recast x y → y.normalize key = .ok v ∧
          (put key y).run r = .ok () r' ∧
            (leaves (put key y) r).digest = r'.digest := by
  constructor
  · refine Iff.trans ?_ (exists_normalize_iff key x)
    constructor
    · intro htaken
      obtain ⟨r', hrun⟩ := htaken
      obtain ⟨v, hv, -⟩ := (run_put_eq_ok_iff hkey).1 hrun
      exact ⟨v, hv⟩
    · intro hstored
      obtain ⟨v, hv⟩ := hstored
      exact ⟨_, run_put_of_new hkey hv⟩
  · intro r' hrun
    obtain ⟨v, hv, rfl⟩ := (run_put_eq_ok_iff hkey).1 hrun
    refine ⟨v, hv, rfl, normalize_ofJson (distinctKeys_normalize key x v hv),
      ?_⟩
    intro y hxy
    have hy : y.normalize key = .ok v := normalize_of_recast key x y v hxy hv
    have hrun' : (put key y).run r = .ok () (r.add key v) :=
      run_put_of_new hkey hy
    refine ⟨hy, hrun', ?_⟩
    unfold leaves
    rw [hrun']

/-- Bytes in a tuple in a dictionary, and their hex text in a list in
one. Both are stored as the same. -/
theorem put_outcome_nested :
    (∀ part, Within part (.dict [(.str "a", .tuple [.bytes #[255], .null])]) →
        ¬Forbidden part) ∧
      ∃ r', (put "k" (.dict [(.str "a", .tuple [.bytes #[255], .null])])).run
          (blank "s") = .ok () r' ∧
        (put "k" (.dict [(.str "a", .list [.str "FF", .null])])).run
          (blank "s") = .ok () r' := by
  have hkey : "k" ∉ (blank "s").keys := List.not_mem_nil
  obtain ⟨htaken, hforms⟩ := put_outcome (blank "s") "k"
    (.dict [(.str "a", .tuple [.bytes #[255], .null])]) hkey
  have hrun : (put "k" (.dict [(.str "a", .tuple [.bytes #[255], .null])])).run
      (blank "s") = .ok () ((blank "s").add "k"
        (.dict [("a", .list [.str "FF", .null])])) :=
    run_put_of_new hkey rfl
  have hrecast : Recast (.dict [(.str "a", .tuple [.bytes #[255], .null])])
      (.dict [(.str "a", .list [.str "FF", .null])]) :=
    .dict (.cons (.refl _) .nil)
      (.cons (.untupled (.cons (.text #[255]) (.cons (.refl _) .nil))) .nil)
  obtain ⟨_, -, -, -, hother⟩ := hforms _ hrun
  exact ⟨htaken.1 ⟨_, hrun⟩, _, hrun, (hother _ hrecast).2.1⟩

end Receipt

end XorSpan
