/-
What a drift report tells. Two runs of a section drift if the hashes of
their digests differ, and then some key's entries differ as the canonical
texts tell them. The search for a key to name compares values as data
instead, and takes a key that a run lacks for one with the placeholder
text. So a difference can be `Passed` over: a truth value against its
number, or the placeholder text against nothing.

A key that is named is one under which the runs differ, but a drift can
be without one (`between_outcome`), and of the keys in front of the one
that is named it is known that they were passed, not that both runs have
them (`report_outcome`). Under the empty key no values are reported.
-/
import XorSpan.Receipt.Drift
import XorSpan.Proofs.Digests
import XorSpan.Proofs.Json.Comparison

namespace XorSpan

-- ============================================================== evaluating

/-- A dictionary's canonical text by functions that can be evaluated.
Sorting by insertion is structural, so that a given receipt can be
hashed by evaluation. -/
theorem Json.toList_canonical_dict {entries : List (String × Json)}
    (h : (entries.map Prod.fst).Nodup) :
    (Json.dict entries).canonical.toUTF8.toList =
      ('\x7b' :: commas ((entries.insertionSort fun e f => e.1 ≤
        f.1).map entryText) ++
        ['\x7d']).flatMap String.utf8EncodeChar := by
  unfold canonical
  rw [Text.toList_toUTF8, String.toList_ofList, chars_dict,
    sortEntries_eq_insertionSort h]

/-- The hash of the parameters, by evaluation. Every section's hash
covers it. -/
theorem Parameters.digest_eq : digest =
    "79bacd6f8ae9343f1339310e2e148d08680373e8fb7ad07fe5c761682cf6a3a4" := by
  unfold digest fingerprint json
  rw [Json.toList_canonical_dict (by decide)]
  decide +kernel

/-- The hash of a receipt with its entries sorted by insertion, so
that it can be evaluated for a receipt that is given. -/
theorem Receipt.digest_hash_eq (r : Receipt) :
    r.digest.hash =
      Hash.fingerprint (('\x7b' :: Json.commas ((r.covered.insertionSort
        fun e f => e.1 ≤ f.1).map Json.entryText) ++
          ['\x7d']).flatMap String.utf8EncodeChar) := by
  show Hash.fingerprint r.hashedText = _
  unfold hashedText
  rw [Json.toList_canonical_dict (nodup_covered r)]

namespace Drift

open Json Receipt

variable {key : String} {x y : Option Json} {as bs : List (String × Json)}
    {left right : Digest}
  {d : Drift}

-- ================================================================ entries

/-- What the calls of a section leave under a key. -/
def recorded (name : String) (steps : List Step) (key : String) : Option Json :=
  (leftBy name steps).digest.payload.lookup key

/-- The entries of two runs under a key that the search passes over. -/
inductive Passed : Option Json → Option Json → Prop where
  | equal {v w : Json} (h : Equal v w) : Passed (some v) (some w)
  | left : Passed (some missing) none
  | right : Passed none (some missing)

/-- Where one of the runs has the key, the search passes over it if
the placeholder text makes the two equal. -/
theorem passed_iff (h : x ≠ none ∨ y ≠ none) :
    Passed x y ↔ Equal (x.getD missing) (y.getD missing) := by
  constructor
  · intro hpassed
    cases hpassed with
    | equal heq => exact heq
    | left | right => exact equal_str_iff.2 rfl
  · intro heq
    cases x with
    | some v =>
      cases y with
      | some w => exact .equal heq
      | none =>
        rw [show v = missing from equal_str_iff.1 heq]
        exact .left
    | none =>
      cases y with
      | some w =>
        rw [show w = missing from str_equal_iff.1 heq]
        exact .right
      | none => simp at h

/-- What agrees under a key is equal there, or missing on both sides. -/
theorem rel_equal_of_agree (h : Option.Rel Agree x y) :
    Option.Rel Equal x y := by
  cases h with
  | none => exact .none
  | some hagree => exact .some (equal_of_agree _ _ hagree)

/-- With the placeholder for what is missing, entries that are equal
or both missing compare as equal. -/
theorem equal_getD_of_rel (h : Option.Rel Equal x y) :
    Equal (x.getD missing) (y.getD missing) := by
  cases h with
  | none => exact equal_str_iff.2 rfl
  | some heq => exact heq

-- ============================================================== searching

/-- What a run has under a key has no repeated keys, if its payload
has none; the placeholder is a text and has no keys at all. -/
theorem distinctKeys_valueAt (h : DistinctKeys (.dict as)) (key : String) :
    DistinctKeys (valueAt as key) := by
  unfold valueAt
  cases h with
  | dict nodup values_distinct =>
    cases hv : as.lookup key with
    | none => exact .str _
    | some v => exact values_distinct _ ((lookup_eq_some_iff nodup).1 hv)

/-- The keys are searched in the order of the first run, and then
those that only the second one has, in its order. -/
theorem keys_eq (as bs : List (String × Json)) :
    keys as bs =
      as.map Prod.fst ++ (bs.map Prod.fst).filter (· ∉ as.map Prod.fst) := by
  unfold keys
  congr 1
  apply List.filter_congr
  intro k _
  have hany : as.any (·.1 == k) = decide (k ∈ as.map Prod.fst) := by
    rw [Bool.eq_iff_iff, List.any_eq_true, decide_eq_true_eq, List.mem_map]
    simp only [beq_iff_eq]
  rw [hany, decide_not]

/-- The search comes to the keys that one of the payloads has. Each of
them is looked at once. -/
theorem mem_keys_iff : key ∈ keys as bs ↔
    as.lookup key ≠ none ∨ bs.lookup key ≠ none := by
  rw [keys_eq, List.mem_append, List.mem_filter,
    decide_eq_true_eq, ne_eq, ne_eq, lookup_eq_none_iff_not_mem,
    lookup_eq_none_iff_not_mem]
  tauto

section Payloads

variable (ha : DistinctKeys (.dict as)) (hb : DistinctKeys (.dict bs))
include ha hb

/-- The search compares what the runs have under a key, the
placeholder standing for nothing. -/
theorem same_valueAt_iff : (valueAt as key).same (valueAt bs key) = true ↔
    Equal ((as.lookup key).getD missing) ((bs.lookup key).getD missing) :=
  same_iff (distinctKeys_valueAt ha key) (distinctKeys_valueAt hb key)

/-- No key is found exactly if every key whose entries differ is
passed over. -/
theorem firstKey_eq_none_iff : firstKey as bs = none ↔
    ∀ key, ¬Option.Rel Agree (as.lookup key) (bs.lookup key) →
      Passed (as.lookup key) (bs.lookup key) := by
  unfold firstKey
  simp only [List.find?_eq_none, Bool.not_eq_true', Bool.not_eq_false,
    same_valueAt_iff ha hb]
  constructor
  · intro h key hdiffer
    have hkey : as.lookup key ≠ none ∨ bs.lookup key ≠ none := by
      by_contra habsent
      rw [not_or, not_not, not_not] at habsent
      rw [habsent.1, habsent.2] at hdiffer
      exact hdiffer .none
    exact (passed_iff hkey).2 (h key (mem_keys_iff.2 hkey))
  · intro h key hkey
    rw [mem_keys_iff] at hkey
    by_cases hagree : Option.Rel Agree (as.lookup key) (bs.lookup key)
    · exact equal_getD_of_rel (rel_equal_of_agree hagree)
    · exact (passed_iff hkey).1 (h key hagree)

/-- The key that is found is the first that is not passed over. All
keys before it are. -/
theorem firstKey_eq_some_iff : firstKey as bs = some key ↔
    ¬Equal ((as.lookup key).getD missing) ((bs.lookup key).getD missing) ∧
      ∃ earlier later, keys as bs = earlier ++ key :: later ∧
        ∀ k ∈ earlier, Passed (as.lookup k) (bs.lookup k) := by
  unfold firstKey
  rw [List.find?_eq_some_iff_append]
  simp only [Bool.not_eq_true', ← Bool.not_eq_true,
    same_valueAt_iff ha hb, Bool.not_not]
  refine and_congr_right fun _ => exists_congr fun earlier =>
    exists_congr fun later => ?_
  refine and_congr_right fun hkeys => forall₂_congr fun k hk => ?_
  have hk : k ∈ keys as bs := by
    rw [hkeys]
    exact List.mem_append_left _ hk
  exact (passed_iff (mem_keys_iff.1 hk)).symm

end Payloads

-- ============================================================== reporting

/-- What a report says, apart from the section and the hashes. -/
structure Reports (left right : Digest) (d : Drift) : Prop where
  key_eq : d.key = firstKey left.payload right.payload
  values : ∀ key, d.key = some key → key ≠ "" →
    d.left = valueAt left.payload key ∧ d.right = valueAt right.payload key
  no_values : d.key = none ∨ d.key = some "" → d.left = .null ∧ d.right = .null

/-- A drift that is found reports the first key that is not passed
over, and the values under it. -/
theorem reports (h : between left right = some d) : Reports left right d := by
  unfold between at h
  split at h
  · cases h
  · cases h
    refine ⟨rfl, ?_, ?_⟩
    · intro key hkey hne
      dsimp only at hkey ⊢
      simp [hkey, hne]
    · intro hkey
      dsimp only at hkey ⊢
      rcases hkey with hkey | hkey
      · simp [hkey]
      · simp [hkey]

/-- Two digests with different hashes have a drift, with or without a
key. -/
theorem exists_between (h : left.hash ≠ right.hash) :
    ∃ d, between left right = some d := by
  unfold between
  rw [if_neg h]
  exact ⟨_, rfl⟩

/-- Two receipts that differ in a key have different hashes, by
evaluation, -/
theorem hash_ne_key : (leftBy "s" [.put "k" (.int 1)]).digest.hash ≠
    (leftBy "s" [.put "" (.int 1)]).digest.hash := by
  rw [digest_hash_eq, digest_hash_eq]
  unfold covered
  rw [Parameters.digest_eq]
  decide +kernel

/-- and so have one with the placeholder text for a value and one that
is blank. -/
theorem hash_ne_placeholder :
    (leftBy "s" [.put "k" (.str "<MISSING>")]).digest.hash ≠
    (leftBy "s" []).digest.hash := by
  rw [digest_hash_eq, digest_hash_eq]
  unfold covered
  rw [Parameters.digest_eq]
  decide +kernel

/-- If two runs of a section have different hashes there is a drift,
and some key's entries differ as the canonical texts tell them. A key
that is named is one whose entries differ even as data; and none is
named exactly if every key whose entries differ is passed over. -/
theorem between_outcome (name : String) (steps steps' : List Step)
    (h : (leftBy name steps).digest.hash ≠ (leftBy name steps').digest.hash) :
    ∃ d,
      between (leftBy name steps).digest (leftBy name steps').digest = some d ∧
      (∃ key, ¬Option.Rel Agree (recorded name steps key)
        (recorded name steps' key)) ∧
      (∀ key, d.key = some key →
        ¬Option.Rel Equal (recorded name steps key)
          (recorded name steps' key)) ∧
      (d.key = none ↔
        ∀ key, ¬Option.Rel Agree (recorded name steps key)
          (recorded name steps' key) →
          Passed (recorded name steps key) (recorded name steps' key)) := by
  have hkeys := distinctKeys_leftBy name steps
  have hkeys' := distinctKeys_leftBy name steps'
  obtain ⟨d, hd⟩ := exists_between h
  have hkey := (reports hd).key_eq
  refine ⟨d, hd, ?_, ?_, ?_⟩
  · rw [← not_forall]
    intro hall
    have htexts : (leftBy name steps).hashedText =
        (leftBy name steps').hashedText := by
      rw [hashedText_eq_iff hkeys hkeys', name_leftBy, name_leftBy]
      exact ⟨rfl, hall⟩
    exact h (congrArg Hash.fingerprint htexts)
  · intro key hsome hrel
    rw [hkey] at hsome
    exact ((firstKey_eq_some_iff hkeys hkeys').1 hsome).1
      (equal_getD_of_rel hrel)
  · rw [hkey]
    exact firstKey_eq_none_iff hkeys hkeys'

/-- Each run has a key that the other lacks, and one is named. The
keys of the first run come first, so it is that run's key. -/
theorem between_outcome_key :
    ∃ d, between (leftBy "s" [.put "k" (.int 1)]).digest
        (leftBy "s" [.put "" (.int 1)]).digest = some d ∧
      d.key ≠ none := by
  obtain ⟨d, hd, -, -, hnone⟩ :=
    between_outcome "s" [.put "k" (.int 1)] [.put "" (.int 1)] hash_ne_key
  refine ⟨d, hd, ?_⟩
  intro hkey
  have hpassed : Passed (some (.int 1)) none :=
    hnone.1 hkey "k" fun hrel => nomatch hrel
  cases hpassed

/-- Only the first run has a key, and none is named. The text that
stands for what is missing is the value itself, so the search passes
it over. -/
theorem between_placeholder :
    ∃ d, between (leftBy "s" [.put "k" (.str "<MISSING>")]).digest
        (leftBy "s" []).digest = some d ∧
      d.key = none ∧
      recorded "s" [.put "k" (.str "<MISSING>")] "k" = some missing ∧
      recorded "s" [] "k" = none := by
  obtain ⟨d, hd⟩ := exists_between hash_ne_placeholder
  refine ⟨d, hd, ?_, rfl, rfl⟩
  rw [(reports hd).key_eq]
  decide +kernel

/-- What two runs have under the key that is named, the placeholder
text standing for nothing, is not equal, and that is what is reported,
unless the key is empty: then no values are. The keys in front of it
were passed over, in the order of the first run's keys and then those
only the second has. -/
theorem report_outcome (name name' : String) (steps steps' : List Step)
    (d : Drift) (key : String)
    (h : between (leftBy name steps).digest
      (leftBy name' steps').digest = some d)
    (hkey : d.key = some key) :
    ¬Equal ((recorded name steps key).getD missing)
      ((recorded name' steps' key).getD missing) ∧
    (key ≠ "" → d.left = (recorded name steps key).getD missing ∧
      d.right = (recorded name' steps' key).getD missing) ∧
    (key = "" → d.left = .null ∧ d.right = .null) ∧
    ∃ earlier later, (leftBy name steps).keys ++
        (leftBy name' steps').keys.filter (· ∉ (leftBy name steps).keys) =
          earlier ++ key :: later ∧
      ∀ k ∈ earlier, Passed (recorded name steps k)
        (recorded name' steps' k) := by
  have hreport := reports h
  have hfound : firstKey (leftBy name steps).payload
      (leftBy name' steps').payload = some key := by
    rw [← hkey]
    exact hreport.key_eq.symm
  rw [firstKey_eq_some_iff (distinctKeys_leftBy name steps)
    (distinctKeys_leftBy name' steps'),
    keys_eq] at hfound
  obtain ⟨hdiffer, hearlier⟩ := hfound
  refine ⟨hdiffer, ?_, ?_, hearlier⟩
  · intro hne
    exact hreport.values key hkey hne
  · intro hempty
    rw [hempty] at hkey
    exact hreport.no_values (.inr hkey)

/-- A number against nothing. What is missing is shown by the
placeholder. -/
theorem report_outcome_key :
    ∃ d, between (leftBy "s" [.put "k" (.int 1)]).digest
        (leftBy "s" [.put "" (.int 1)]).digest = some d ∧
      d.key = some "k" ∧ d.left = .int 1 ∧ d.right = missing := by
  obtain ⟨d, hd⟩ := exists_between hash_ne_key
  have hkey : d.key = some "k" := by
    rw [(reports hd).key_eq]
    decide +kernel
  obtain ⟨-, hvalues, -⟩ :=
    report_outcome "s" "s" [.put "k" (.int 1)] [.put "" (.int 1)] d "k" hd hkey
  obtain ⟨hleft, hright⟩ := hvalues (by decide)
  exact ⟨d, hd, hkey, hleft, hright⟩

/-- The number under the empty key is not reported. An empty key
counts as none when the values are taken, though it is named. -/
theorem report_empty_key :
    ∃ d, between (leftBy "s" [.put "" (.int 1)]).digest
        (leftBy "s" [.put "k" (.int 1)]).digest = some d ∧
      d.key = some "" ∧
      recorded "s" [.put "" (.int 1)] "" = some (.int 1) ∧
      d.left = .null := by
  obtain ⟨d, hd⟩ := exists_between hash_ne_key.symm
  have hkey : d.key = some "" := by
    rw [(reports hd).key_eq]
    decide +kernel
  exact ⟨d, hd, hkey, rfl, ((reports hd).no_values (.inr hkey)).1⟩

end Drift

end XorSpan
