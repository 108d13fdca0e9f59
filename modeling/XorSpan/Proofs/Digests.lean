/-
What the hash of a digest tells. A receipt is written by calls, of which
some may fail; whatever the calls were, no key stands twice in what they
leave, in the payload or inside a value (`distinctKeys_leftBy`). So the
canonical text under the hash tells the section and the payload, as a
mapping, and where the hash function keeps two such texts apart so do the
hashes (`hash_outcome`).
-/
import XorSpan.Proofs.HexOrder
import XorSpan.Proofs.Json.Canonical
import XorSpan.Proofs.Receipts
import XorSpan.Proofs.Texts

namespace XorSpan

-- ========================================================== stored values

namespace Json

variable {k : String} {v : Json} {entries : List (String × Json)}

/-- Writing under a key makes it one of the keys, where it was not.
Otherwise the keys stay as they are, and in their order. -/
theorem map_fst_put : (put k v entries).map Prod.fst =
    if k ∈ entries.map Prod.fst then entries.map Prod.fst
      else entries.map Prod.fst ++ [k] := by
  induction entries with
  | nil => rfl
  | cons e entries ih =>
    obtain ⟨j, w⟩ := e
    unfold put
    by_cases hjk : j = k
    · have hin : k ∈ ((j, w) :: entries).map Prod.fst :=
        List.mem_cons.2 (.inl hjk.symm)
      rw [if_pos hjk, if_pos hin]
      rfl
    · rw [if_neg hjk, List.map_cons, ih, List.map_cons]
      dsimp only
      by_cases hk : k ∈ entries.map Prod.fst
      · rw [if_pos hk, if_pos (List.mem_cons_of_mem _ hk)]
      · have hnot : k ∉ j :: entries.map Prod.fst := by
          rw [List.mem_cons, not_or]
          exact ⟨fun heq => hjk heq.symm, hk⟩
        rw [if_neg hk, if_neg hnot]
        rfl

/-- Writing under a key brings in no other entry than the one that is
written. -/
theorem mem_put {e : String × Json} (h : e ∈ put k v entries) :
    e = (k, v) ∨ e ∈ entries := by
  induction entries with
  | nil => exact .inl (List.mem_singleton.1 h)
  | cons e' entries ih =>
    obtain ⟨j, w⟩ := e'
    unfold put at h
    split at h
    · next hjk =>
      rcases List.mem_cons.1 h with heq | hin
      · rw [hjk] at heq
        exact .inl heq
      · exact .inr (List.mem_cons_of_mem _ hin)
    · rcases List.mem_cons.1 h with heq | hin
      · exact .inr (List.mem_cons.2 (.inl heq))
      · rcases ih hin with heq | hin
        · exact .inl heq
        · exact .inr (List.mem_cons_of_mem _ hin)

/-- Writing a value without repeated keys keeps a dictionary free of
them: where the key was, its value is replaced. -/
theorem DistinctKeys.put (h : DistinctKeys (.dict entries))
    (hv : DistinctKeys v) :
    DistinctKeys (.dict (Json.put k v entries)) := by
  cases h with
  | dict nodup values_distinct =>
    refine .dict ?_ ?_
    · rw [map_fst_put]
      split
      · exact nodup
      · next hk =>
        refine nodup.append (List.nodup_singleton k) ?_
        rw [List.disjoint_singleton]
        exact hk
    · intro e he
      rcases mem_put he with rfl | he
      · exact hv
      · exact values_distinct e he

/-- A new entry behind the others. -/
theorem DistinctKeys.snoc (h : DistinctKeys (.dict entries))
    (hk : k ∉ entries.map Prod.fst)
    (hv : DistinctKeys v) : DistinctKeys (.dict (entries ++ [(k, v)])) := by
  cases h with
  | dict nodup values_distinct =>
    refine .dict ?_ ?_
    · have hkey : [k].Nodup := List.nodup_singleton k
      rw [List.map_append]
      exact nodup.append hkey (List.disjoint_singleton.2 hk)
    · intro e he
      rcases List.mem_append.1 he with he | he
      · exact values_distinct e he
      · rw [List.mem_singleton.1 he]
        exact hv

end Json

namespace Datum

open Json

/-- A tuple is stored as a list is. So the two cannot be told apart in
a receipt. -/
theorem normalize_tuple (path : String) (items : List Datum) :
    (tuple items).normalize path = (list items).normalize path := by
  rw [normalize, normalize]

/-- A list is stored if all of its items are, in their order. -/
theorem normalize_list_eq_ok_iff {path : String}
    {items : List Datum} {v : Json} :
    (list items).normalize path = .ok v ↔
      ∃ vs, normalizeItems path 0 items = .ok vs ∧ v = .list vs := by
  rw [normalize]
  cases normalizeItems path 0 items with
  | error e => simp [Except.map]
  | ok vs => simp [Except.map, eq_comm]

/-- A dictionary is stored if all of its entries are, one after the
other into an empty one. -/
theorem normalize_dict_eq_ok_iff {path : String}
    {entries : List (Datum × Datum)} {v : Json} :
    (dict entries).normalize path = .ok v ↔
      ∃ vs, normalizeEntries path [] entries = .ok vs ∧ v = .dict vs := by
  rw [normalize]
  cases normalizeEntries path [] entries with
  | error e => simp [Except.map]
  | ok vs => simp [Except.map, eq_comm]

/-- The first item is stored under its index, and the others under the
next ones. -/
theorem normalizeItems_cons_eq_ok_iff {path : String} {index : Nat} {x : Datum}
    {items : List Datum} {vs : List Json} :
    normalizeItems path index (x :: items) = .ok vs ↔
      ∃ w, x.normalize s!"{path}[{index}]" = .ok w ∧
        ∃ ws, normalizeItems path (index + 1) items = .ok ws ∧
        vs = w :: ws := by
  rw [normalizeItems]
  cases x.normalize s!"{path}[{index}]" with
  | error e => simp [bind, Except.bind]
  | ok w =>
    cases normalizeItems path (index + 1) items with
    | error e => simp [bind, Except.bind]
    | ok ws => simp [bind, Except.bind, pure, Except.pure, eq_comm]

/-- The first entry is stored under its key, and the others go into
what is there then. -/
theorem normalizeEntries_cons_eq_ok_iff {path k : String}
    {stored vs : List (String × Json)}
    {x : Datum} {entries : List (Datum × Datum)} :
    normalizeEntries path stored ((.str k, x) :: entries) = .ok vs ↔
      ∃ w, x.normalize s!"{path}.{k}" = .ok w ∧
        normalizeEntries path (Json.put k w stored) entries = .ok vs := by
  rw [normalizeEntries]
  cases x.normalize s!"{path}.{k}" with
  | error e => simp [bind, Except.bind]
  | ok w => simp [bind, Except.bind]

mutual

/-- No key stands twice in what is stored. The proof goes along the
datum, with items and entries in step with it. -/
theorem distinctKeys_normalize (path : String) :
    ∀ (x : Datum) (v : Json), x.normalize path = .ok v → DistinctKeys v
  | .null, _, h => by cases h; exact .null
  | .bool b, _, h => by cases h; exact .bool b
  | .int n, _, h => by cases h; exact .int n
  | .str s, _, h => by cases h; exact .str s
  | .bytes b, _, h => by cases h; exact .str _
  | .buffer b, _, h => by cases h; exact .str _
  | .float _, _, h => by cases h
  | .view _, _, h => by cases h
  | .other _, _, h => by cases h
  | .list items, v, h => by
      obtain ⟨vs, hvs, rfl⟩ := normalize_list_eq_ok_iff.1 h
      exact .list (distinctKeys_normalizeItems path 0 items vs hvs)
  | .tuple items, v, h => by
      rw [normalize_tuple] at h
      obtain ⟨vs, hvs, rfl⟩ := normalize_list_eq_ok_iff.1 h
      exact .list (distinctKeys_normalizeItems path 0 items vs hvs)
  | .dict entries, v, h => by
      obtain ⟨vs, hvs, rfl⟩ := normalize_dict_eq_ok_iff.1 h
      exact distinctKeys_normalizeEntries path [] entries vs
        (.dict .nil fun _ he => nomatch he) hvs

/-- Nor in any item of a list that is stored. -/
theorem distinctKeys_normalizeItems (path : String) (index : Nat) :
    ∀ (items : List Datum) (vs : List Json),
    normalizeItems path index items = .ok vs →
      ∀ v ∈ vs, DistinctKeys v
  | [], vs, h, v, hv => by
      cases h
      cases hv
  | item :: items, vs, h, v, hv => by
      obtain ⟨w, hw, ws, hws, rfl⟩ := normalizeItems_cons_eq_ok_iff.1 h
      rcases List.mem_cons.1 hv with rfl | hv
      · exact distinctKeys_normalize _ item v hw
      · exact distinctKeys_normalizeItems path (index + 1) items ws hws v hv

/-- Nor among the entries of a dictionary: each is put under its key,
so a key that comes again keeps its first place. -/
theorem distinctKeys_normalizeEntries (path : String)
    (stored : List (String × Json)) :
    ∀ (entries : List (Datum × Datum)) (vs : List (String × Json)),
      DistinctKeys (.dict stored) →
      normalizeEntries path stored entries = .ok vs →
        DistinctKeys (.dict vs)
  | [], vs, hstored, h => by
      cases h
      exact hstored
  | (key, x) :: entries, vs, hstored, h => by
      cases key with
      | str k =>
        obtain ⟨w, hw, hvs⟩ := normalizeEntries_cons_eq_ok_iff.1 h
        exact distinctKeys_normalizeEntries path
          (Json.put k w stored) entries vs
          (hstored.put (distinctKeys_normalize _ x w hw)) hvs
      | _ => cases h

end

end Datum

-- =============================================================== scripts

namespace Receipt

open Json

/-- What a computation leaves of a receipt, whether it fails or not. -/
def leaves (w : Writer Unit) (r : Receipt) : Receipt :=
  match w.run r with
  | .ok _ r' => r'
  | .error _ r' => r'

/-- The receipt that a section's calls leave. A call that fails does
not keep the next from being made. -/
def leftBy (name : String) (steps : List Step) : Receipt :=
  steps.foldl (fun r step => leaves step.run r) (blank name)

/-- The second receipt is the first with new entries behind its own. -/
inductive Extends (r : Receipt) : Receipt → Prop where
  | refl : Extends r r
  | entry {r' : Receipt} {key : String} {v : Json} (h : Extends r r')
      (hkey : key ∉ r'.keys)
      (hv : DistinctKeys v) :
      Extends r { r' with payload := r'.payload ++ [(key, v)] }

variable {w : Writer Unit} {f : Unit → Writer Unit} {r r' r'' : Receipt}
    {name name' : String}

/-- What extends an extension extends the receipt itself. -/
theorem Extends.trans (h : Extends r r') (h' : Extends r' r'') :
    Extends r r'' := by
  induction h' with
  | refl => exact h
  | entry _ hkey hv ih => exact ih.entry hkey hv

/-- A receipt that was extended keeps the name of its section. -/
theorem Extends.name_eq (h : Extends r r') : r'.name = r.name := by
  induction h with
  | refl => rfl
  | entry _ _ _ ih => exact ih

/-- If no key stood twice before, none does after: a new entry has a
new key. -/
theorem Extends.distinctKeys (h : Extends r r')
    (hr : DistinctKeys (.dict r.payload)) :
    DistinctKeys (.dict r'.payload) := by
  induction h with
  | refl => exact hr
  | entry _ hkey hv ih => exact ih.snoc hkey hv

/-- The computation changes no receipt but by new entries. -/
def Appends (w : Writer Unit) : Prop := ∀ r, Extends r (leaves w r)

/-- A computation in two parts appends if both do, and also if the
first fails, since the second is not come to then. -/
theorem Appends.bind (h : Appends w) (hf : Appends (f ())) :
    Appends (w >>= f) := by
  intro r
  have hw := h r
  unfold leaves at hw ⊢
  rw [EStateM.run_bind]
  cases hrun : w.run r with
  | ok _ r₁ =>
    rw [hrun] at hw
    exact hw.trans (hf r₁)
  | error e r₁ =>
    rw [hrun] at hw
    exact hw

theorem appends_throw (e : ReceiptError) : Appends (throw e) := fun _ => .refl

/-- A write appends an entry under a new key, or leaves the receipt as
it was. -/
theorem appends_put (key : String) (value : Datum) :
    Appends (put key value) := by
  intro r
  have hput := putting r key value
  unfold leaves
  generalize (put key value).run r = left at hput ⊢
  cases hput with
  | stored new normal =>
    exact Extends.refl.entry new
      (Datum.distinctKeys_normalize key value _ normal)
  | unchanged => exact .refl

/-- Recording a frame is one write. -/
theorem appends_putFrame (key : String) (values : List Bytes) :
    Appends (putFrame key values) := by
  unfold putFrame
  cases Frame.encode values with
  | error e => exact appends_throw _
  | ok frame => exact appends_put _ _

/-- Recording data is two writes with a check in between. If the check
fails, the first write stays. -/
theorem appends_putData (key : String) (data : List Datum) :
    Appends (putData key data) := by
  unfold putData
  apply (appends_put _ _).bind
  cases data.mapM (Datum.read .copy) with
  | error e => exact appends_throw _
  | ok values => exact appends_putFrame key values

/-- So every call that can be made of a receipt appends to it. -/
theorem appends_step : ∀ step : Step, Appends step.run
  | .put key value => appends_put key value
  | .putValues key values => appends_putData key values
  | .digest => fun _ => .refl

/-- And any number of calls, failing ones among them: what one has
left, the next extends. -/
theorem extends_foldl (steps : List Step) (r : Receipt) :
    Extends r (steps.foldl (fun r step => leaves step.run r) r) := by
  induction steps generalizing r with
  | nil => exact .refl
  | cons step steps ih => exact (appends_step step r).trans (ih _)

/-- Calls do not change the section's name. It is the name that the
receipt was begun with. -/
theorem name_leftBy (name : String) (steps : List Step) :
    (leftBy name steps).name = name :=
  (extends_foldl steps (blank name)).name_eq

/-- Whatever the calls, no key stands twice in the payload or inside
one of its values. -/
theorem distinctKeys_leftBy (name : String) (steps : List Step) :
    DistinctKeys (.dict (leftBy name steps).payload) :=
  (extends_foldl steps (blank name)).distinctKeys
    (.dict .nil fun _ he => nomatch he)

end Receipt

-- ================================================================= hashes

/-- Fingerprints are equal exactly if the digests that they spell are.
They are hex texts of one length. -/
theorem Hash.fingerprint_eq_iff {xs ys : List UInt8} :
    fingerprint xs = fingerprint ys ↔ blake3 xs = blake3 ys := by
  have hdigit : ∀ d e : Fin 16, Nat.digitChar d = Nat.digitChar e →
      d = e := by decide
  unfold fingerprint
  rw [String.ofList_inj]
  constructor
  · exact Bytes.flatMap_halves_inj hdigit
  · intro h
    rw [h]

namespace Receipt

open Json

variable {r r' : Receipt}

/-- The bytes that the hash of a receipt's digest is taken of. -/
def hashedText (r : Receipt) : List UInt8 :=
  (Json.dict r.covered).canonical.toUTF8.toList

/-- What a hash covers are four entries with fixed keys, none of them
twice. -/
theorem nodup_covered (r : Receipt) : (r.covered.map Prod.fst).Nodup := by
  show ["section", "format_version", "param_registry_hash", "payload"].Nodup
  decide

/-- So it has no repeated keys if the payload has none. -/
theorem distinctKeys_covered (hr : DistinctKeys (.dict r.payload)) :
    DistinctKeys (.dict r.covered) := by
  refine .dict (nodup_covered r) ?_
  unfold covered
  simp only [List.forall_mem_cons, List.not_mem_nil, false_implies,
    implies_true, and_true]
  exact ⟨.str _, .str _, .str _, hr⟩

/-- What a digest's hash covers agrees if section and payload do. The
other two things that are covered are the same for all. -/
theorem agree_covered_iff : Agree (.dict r.covered) (.dict r'.covered) ↔
    r.name = r'.name ∧ Agree (.dict r.payload) (.dict r'.payload) := by
  constructor
  · intro h
    have hkeys := (agree_dict_iff (nodup_covered r) (nodup_covered r')).1 h
    have hname : Option.Rel Agree (some (.str r.name)) (some (.str r'.name)) :=
      hkeys "section"
    have hpayload :
        Option.Rel Agree (some (.dict r.payload)) (some (.dict r'.payload)) :=
      hkeys "payload"
    cases hname with
    | some hname =>
      cases hpayload with
      | some hpayload =>
        exact ⟨eq_of_agree_str hname, hpayload⟩
  · rintro ⟨hname, hpayload⟩
    refine .dict (.refl _) (.refl _) rfl ?_
    unfold covered
    rw [hname]
    exact .cons (.str _) (.cons (.str _) (.cons (.str _) (.cons hpayload .nil)))

/-- Receipts without repeated keys have one text under their hashes
exactly if they have one name and payloads that agree as mappings. -/
theorem hashedText_eq_iff (hr : DistinctKeys (.dict r.payload))
    (hr' : DistinctKeys (.dict r'.payload)) :
    r.hashedText = r'.hashedText ↔
      r.name = r'.name ∧
      ∀ key, Option.Rel Agree (r.payload.lookup key)
        (r'.payload.lookup key) := by
  have hpayload : Agree (.dict r.payload) (.dict r'.payload) ↔
      ∀ key, Option.Rel Agree (r.payload.lookup key)
        (r'.payload.lookup key) := by
    cases hr with
    | dict nodup _ =>
      cases hr' with
      | dict nodup' _ => exact agree_dict_iff nodup nodup'
  unfold hashedText
  rw [Text.toList_toUTF8_inj,
    canonical_eq_iff (distinctKeys_covered hr) (distinctKeys_covered hr'),
    agree_covered_iff, hpayload]

/-- The texts under two digests' hashes are not different ones that
the hash function takes for one. -/
def NoCollision (r r' : Receipt) : Prop :=
  Hash.blake3 r.hashedText = Hash.blake3 r'.hashedText →
  r.hashedText = r'.hashedText

/-- The canonical text tells a value up to the order of entries. So,
but for a collision, the hashes of two digests tell whether their
sections have one name and their payloads agree as mappings, in
whatever order they were written. -/
theorem hash_outcome :
    (∀ a b : Json, DistinctKeys a → DistinctKeys b →
      (a.canonical.toUTF8 = b.canonical.toUTF8 ↔ Agree a b)) ∧
    ∀ (name name' : String) (steps steps' : List Step),
      NoCollision (leftBy name steps) (leftBy name' steps') →
        ((leftBy name steps).digest.hash = (leftBy name' steps').digest.hash ↔
          name = name' ∧ ∀ key, Option.Rel Agree
            ((leftBy name steps).digest.payload.lookup key)
            ((leftBy name' steps').digest.payload.lookup key)) := by
  constructor
  · intro a b ha hb
    rw [String.toUTF8_eq_toByteArray, String.toUTF8_eq_toByteArray,
      String.toByteArray_inj]
    exact canonical_eq_iff ha hb
  · intro name name' steps steps' hcollision
    have htexts := hashedText_eq_iff (distinctKeys_leftBy name steps)
      (distinctKeys_leftBy name' steps')
    rw [name_leftBy, name_leftBy] at htexts
    show Hash.fingerprint (leftBy name steps).hashedText =
      Hash.fingerprint (leftBy name' steps').hashedText ↔ _
    rw [Hash.fingerprint_eq_iff]
    constructor
    · intro h
      exact htexts.1 (hcollision h)
    · intro h
      rw [htexts.2 h]

/-- Two entries in either order, in a value and in a receipt. The
canonical text is the same, and so is the hash. -/
theorem hash_outcome_swap :
    (Json.dict [("a", .int 1), ("b", .null)]).canonical.toUTF8 =
        (Json.dict [("b", .null), ("a", .int 1)]).canonical.toUTF8 ∧
      (leftBy "s" [.put "a" (.int 1), .put "b" .null]).digest.hash =
        (leftBy "s" [.put "b" .null, .put "a" (.int 1)]).digest.hash := by
  have hagree : Agree (.dict [("a", .int 1), ("b", .null)])
      (.dict [("b", .null), ("a", .int 1)]) :=
    .dict (.refl _) (.swap ..) rfl (.cons (.int 1) (.cons .null .nil))
  have hleft : DistinctKeys (.dict [("a", .int 1), ("b", .null)]) :=
    distinctKeys_leftBy "s" [.put "a" (.int 1), .put "b" .null]
  have hright : DistinctKeys (.dict [("b", .null), ("a", .int 1)]) :=
    distinctKeys_leftBy "s" [.put "b" .null, .put "a" (.int 1)]
  refine ⟨(hash_outcome.1 _ _ hleft hright).2 hagree, ?_⟩
  have hpayload : ∀ key, Option.Rel Agree
      ((leftBy "s" [.put "a" (.int 1), .put "b" .null]).payload.lookup key)
      ((leftBy "s" [.put "b" .null, .put "a" (.int 1)]).payload.lookup key) :=
    (agree_dict_iff (by decide) (by decide)).1 hagree
  have hcollision : NoCollision (leftBy "s" [.put "a" (.int 1), .put "b" .null])
      (leftBy "s" [.put "b" .null, .put "a" (.int 1)]) :=
    fun _ => (hashedText_eq_iff hleft hright).2 ⟨rfl, hpayload⟩
  exact (hash_outcome.2 "s" "s" _ _ hcollision).2 ⟨rfl, hpayload⟩

end Receipt

end XorSpan
