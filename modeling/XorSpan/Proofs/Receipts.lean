/-
Receipts that are sure to be written. A computation `Writes` keys if it
succeeds on every receipt that has none of them yet, and `Refuses` with
an error if it fails on every such receipt. Both are put together from
their parts, of which the least writes one entry or nothing (`Putting`),
so that what is left of a whole receipt is that its keys are different
and that its lists of values have frames.

A list of values of one length has a frame exactly as long as the length
fits two bytes and the number of values four (`Frame.encode_eq`).
-/
import XorSpan.Answer
import XorSpan.Proofs.Jobs
import XorSpan.Proofs.Words

namespace XorSpan

-- ================================================================ frames

namespace Frame

/-- The width that a frame states is the length of its values; a frame
of none states zero. -/
theorem width_eq {n : Nat} {values : List Bytes}
    (h : ∀ v ∈ values, v.size = n) :
    width values = if values = [] then 0 else n := by
  cases values with
  | nil => rfl
  | cons v values =>
    rw [if_neg (List.cons_ne_nil v values)]
    exact h v (List.mem_cons_self ..)

/-- Values of one length that fits have a frame unless they are too
many. -/
theorem encode_eq {n : Nat} {values : List Bytes} (h : ∀ v ∈ values, v.size = n)
    (hn : n ≤ 0xffff) :
    encode values =
      if values.length > 0xffffffff then .error (.tooMany values.length)
      else .ok (bytes (width values) values) := by
  have hwidth : width values ≤ 0xffff := by
    rw [width_eq h]
    split
    · exact Nat.zero_le _
    · exact hn
  have hfit : Bytes.misfit? (width values) values = none := by
    rw [Bytes.misfit?_eq_none_iff]
    intro v hv
    rw [width_eq h, if_neg (List.ne_nil_of_mem hv)]
    exact h v hv
  unfold encode
  dsimp only
  rw [hfit]
  dsimp only
  rw [if_neg (Nat.not_lt.2 hwidth)]

/-- Values that are too long have none. An empty list has no length
that could be too long. -/
theorem encode_of_lt {n : Nat} {values : List Bytes}
    (h : ∀ v ∈ values, v.size = n) (hne : values ≠ []) (hn : 0xffff < n) :
    encode values = .error (.tooLong n) := by
  have hwidth : width values = n := by
    rw [width_eq h, if_neg hne]
  have hfit : Bytes.misfit? n values = none := Bytes.misfit?_eq_none_iff.2 h
  unfold encode
  dsimp only
  rw [hwidth, hfit]
  exact if_pos hn

end Frame

-- ================================================================= stored

namespace Datum

mutual

/-- What is stored already can be stored. It may change in being
stored again, if a key stands twice in it. -/
theorem exists_normalize_ofJson (path : String) :
    ∀ j : Json, ∃ v, (ofJson j).normalize path = .ok v
  | .null => ⟨.null, rfl⟩
  | .bool b => ⟨.bool b, rfl⟩
  | .int n => ⟨.int n, rfl⟩
  | .str s => ⟨.str s, rfl⟩
  | .list items => by
      obtain ⟨vs, hvs⟩ := exists_normalizeItems_ofItems path 0 items
      refine ⟨.list vs, ?_⟩
      rw [ofJson, normalize, hvs]
      rfl
  | .dict entries => by
      obtain ⟨vs, hvs⟩ := exists_normalizeEntries_ofEntries path [] entries
      refine ⟨.dict vs, ?_⟩
      rw [ofJson, normalize, hvs]
      rfl

/-- So can the items of what is stored, from any index on: the index
and the path are there for the error, and no item has one. -/
theorem exists_normalizeItems_ofItems (path : String) (index : Nat) :
    ∀ items : List Json,
      ∃ vs, normalizeItems path index (ofItems items) = .ok vs
  | [] => ⟨[], rfl⟩
  | item :: items => by
      obtain ⟨v, hv⟩ := exists_normalize_ofJson s!"{path}[{index}]" item
      obtain ⟨vs, hvs⟩ := exists_normalizeItems_ofItems path (index + 1) items
      refine ⟨v :: vs, ?_⟩
      rw [ofItems, normalizeItems, hv]
      show (do
        let vs ← normalizeItems path (index + 1) (ofItems items)
        return v :: vs) = Except.ok (v :: vs)
      rw [hvs]
      rfl

/-- And its entries, whatever has been stored of the dictionary before
them: a key is text, and a later entry takes the place of an earlier
one. -/
theorem exists_normalizeEntries_ofEntries (path : String)
    (stored : List (String × Json)) :
    ∀ entries : List (String × Json),
      ∃ vs, normalizeEntries path stored (ofEntries entries) = .ok vs
  | [] => ⟨stored, rfl⟩
  | (k, v) :: entries => by
      obtain ⟨w, hw⟩ := exists_normalize_ofJson s!"{path}.{k}" v
      obtain ⟨vs, hvs⟩ := exists_normalizeEntries_ofEntries path
        (Json.put k w stored) entries
      refine ⟨vs, ?_⟩
      rw [ofEntries, normalizeEntries, hw]
      exact hvs

end

end Datum

-- ================================================================ writing

namespace Receipt

/-- The keys of a receipt, in the order of writing. -/
def keys (r : Receipt) : List String := r.payload.map Prod.fst

variable {w w' : Writer Unit} {ks ks' : List String} {key : String}
    {values : List Bytes}

/-- The computation writes these keys into every receipt that has none
of them. -/
def Writes (w : Writer Unit) (ks : List String) : Prop :=
  ∀ r : Receipt, (∀ k ∈ ks, k ∉ r.keys) →
    ∃ r', w.run r = .ok () r' ∧ r'.keys = r.keys ++ ks

/-- The computation fails on every receipt that has none of these
keys. -/
def Refuses (w : Writer Unit) (ks : List String) (e : ReceiptError) : Prop :=
  ∀ r : Receipt, (∀ k ∈ ks, k ∉ r.keys) → ∃ r', w.run r = .error e r'

/-- Two computations that write keys of their own write them all, one
after the other. Had they a key in common, the second would be refused
it. -/
theorem Writes.bind (h : Writes w ks) (h' : Writes w' ks')
    (hdisjoint : ∀ k ∈ ks', k ∉ ks) :
    Writes (w >>= fun _ => w') (ks ++ ks') := by
  intro r hr
  obtain ⟨r₁, hrun, hkeys⟩ := h r fun k hk => hr k (List.mem_append_left _ hk)
  obtain ⟨r₂, hrun', hkeys'⟩ := h' r₁ (by
    intro k hk
    rw [hkeys, List.mem_append, not_or]
    exact ⟨hr k (List.mem_append_right _ hk), hdisjoint k hk⟩)
  refine ⟨r₂, ?_, by rw [hkeys', hkeys, List.append_assoc]⟩
  rw [EStateM.run_bind, hrun]
  exact hrun'

/-- If the second of two computations is refused, so is the whole, and
what the first has written stays written. -/
theorem Writes.bind_refuses {e : ReceiptError} (h : Writes w ks)
    (h' : Refuses w' ks' e) (hdisjoint : ∀ k ∈ ks', k ∉ ks) :
    Refuses (w >>= fun _ => w') (ks ++ ks') e := by
  intro r hr
  obtain ⟨r₁, hrun, hkeys⟩ := h r fun k hk => hr k (List.mem_append_left _ hk)
  obtain ⟨r₂, hrun'⟩ := h' r₁ (by
    intro k hk
    rw [hkeys, List.mem_append, not_or]
    exact ⟨hr k (List.mem_append_right _ hk), hdisjoint k hk⟩)
  refine ⟨r₂, ?_⟩
  rw [EStateM.run_bind, hrun]
  exact hrun'

/-- What has failed is not gone on with. -/
theorem Refuses.bind {e : ReceiptError} (h : Refuses w ks e)
    (f : Unit → Writer Unit) :
    Refuses (w >>= f) ks e := by
  intro r hr
  obtain ⟨r', hrun⟩ := h r hr
  refine ⟨r', ?_⟩
  rw [EStateM.run_bind, hrun]

-- =================================================================== a call

/-- The receipt with one more entry. -/
def add (r : Receipt) (key : String) (v : Json) : Receipt :=
  { r with payload := r.payload ++ [(key, v)] }

/-- A new entry stands behind all the others, and so does its key. -/
theorem keys_add (r : Receipt) (key : String) (v : Json) :
    (r.add key v).keys = r.keys ++ [key] :=
  List.map_append

/-- A key that is there is not written again, whatever is offered
under it, and the receipt is left as it was. -/
theorem run_put_of_mem {r : Receipt} {value : Datum} (h : key ∈ r.keys) :
    (put key value).run r = .error (.duplicateKey key) r := by
  obtain ⟨e, he, rfl⟩ := List.mem_map.1 h
  have htaken : r.payload.any (·.1 == e.1) = true :=
    List.any_eq_true.2 ⟨e, he, beq_self_eq_true _⟩
  unfold put
  simp only [EStateM.run_bind, EStateM.run_get, htaken]
  rfl

theorem any_key_eq_false {r : Receipt} (h : key ∉ r.keys) :
    r.payload.any (·.1 == key) = false := by
  rw [List.any_eq_false]
  intro e he heq
  exact h (List.mem_map.2 ⟨e, he, by simpa using heq⟩)

/-- What cannot be stored is refused with its own error, and the
receipt is left as it was. -/
theorem run_put_of_refused {r : Receipt} {value : Datum} {e : ReceiptError}
    (h : key ∉ r.keys) (he : value.normalize key = .error e) :
    (put key value).run r = .error e r := by
  unfold put
  simp only [EStateM.run_bind, EStateM.run_get, any_key_eq_false h, he]
  rfl

/-- What can be stored goes under a new key as it is stored, not as it
was offered. -/
theorem run_put_of_new {r : Receipt} {value : Datum} {v : Json}
    (h : key ∉ r.keys) (hv : value.normalize key = .ok v) :
    (put key value).run r = .ok () (r.add key v) := by
  unfold put
  simp only [EStateM.run_bind, EStateM.run_get, any_key_eq_false h, hv]
  rfl

/-- What writing a datum under a key comes to. -/
inductive Putting (r : Receipt) (key : String) (value : Datum) :
    EStateM.Result ReceiptError Receipt Unit → Prop where
  | stored {v : Json} (new : key ∉ r.keys)
      (normal : value.normalize key = .ok v) :
      Putting r key value (.ok () (r.add key v))
  | unchanged (e : ReceiptError) : Putting r key value (.error e r)

/-- A single write stores what is offered, under a new key, or leaves
the receipt as it was. What is said about writing in other modules is
read off this by cases. -/
theorem putting (r : Receipt) (key : String) (value : Datum) :
    Putting r key value ((put key value).run r) := by
  by_cases hkey : key ∈ r.keys
  · rw [run_put_of_mem hkey]
    exact .unchanged _
  · cases hv : value.normalize key with
    | error e =>
      rw [run_put_of_refused hkey hv]
      exact .unchanged e
    | ok v =>
      rw [run_put_of_new hkey hv]
      exact .stored hkey hv

-- ============================================================ sure to succeed

/-- A datum that can be stored can be written. Its key is the only one
that is written. -/
theorem writes_put {value : Datum} {v : Json}
    (hv : value.normalize key = .ok v) :
    Writes (put key value) [key] := by
  intro r hr
  exact ⟨r.add key v, run_put_of_new (hr key (List.mem_cons_self ..)) hv,
    keys_add r key v⟩

/-- Values that have a frame leave its hash behind, under a key made
from theirs. -/
theorem writes_putFrame {frame : List UInt8}
    (h : Frame.encode values = .ok frame) :
    Writes (putFrame key values) [key ++ ".hash"] := by
  unfold putFrame
  rw [h]
  exact writes_put rfl

/-- Values that have a frame can be recorded. Two keys are made from
the one that is given, for their number and for the hash of their
frame. -/
theorem writes_putValues {frame : List UInt8}
    (h : Frame.encode values = .ok frame)
    (hkeys : key ++ ".hash" ≠ key ++ ".count") :
    Writes (putValues key values) [key ++ ".count", key ++ ".hash"] := by
  unfold putValues
  refine Writes.bind (writes_put rfl) (writes_putFrame h) ?_
  intro k hk
  rw [List.mem_singleton.1 hk, List.mem_singleton]
  exact hkeys

/-- The count comes before the frame is made: values without a frame
are refused, and their count has been written. -/
theorem refuses_putValues {e : FrameError}
    (h : Frame.encode values = .error e) :
    Refuses (putValues key values) [key ++ ".count"] (.frame e) := by
  have hframe : Refuses (putFrame key values) [] (.frame e) := by
    intro r _
    unfold putFrame
    rw [h]
    exact ⟨r, rfl⟩
  unfold putValues
  exact Writes.bind_refuses (writes_put rfl) hframe fun k hk => nomatch hk

/-- A computation that writes makes a receipt out of a blank one. A
blank receipt has no keys, so none can be there already. -/
theorem Writes.write (h : Writes w ks) (name : String) :
    ∃ r, write name w = .ok r := by
  obtain ⟨r, hrun, -⟩ := h (blank name) fun k _ hk => nomatch hk
  refine ⟨r, ?_⟩
  unfold Receipt.write
  rw [hrun]

/-- A computation that is refused makes no receipt: what it has
written is given up with it. -/
theorem Refuses.write {e : ReceiptError} (h : Refuses w ks e) (name : String) :
    write name w = .error e := by
  obtain ⟨r, hrun⟩ := h (blank name) fun k _ hk => nomatch hk
  unfold Receipt.write
  rw [hrun]

end Receipt

namespace Receipt

variable {w : Writer Unit} {f : Unit → Writer Unit} {key name : String}
    {values : List Bytes}
  {value : Datum} {r r' : Receipt}

-- ================================================== what was written

/-- A computation in two parts that succeeds does so in both. It is
how a receipt that was written is taken apart again. -/
theorem run_bind_eq_ok (h : (w >>= f).run r = .ok () r') :
    ∃ r₁, w.run r = .ok () r₁ ∧ (f ()).run r₁ = .ok () r' := by
  rw [EStateM.run_bind] at h
  cases hw : w.run r with
  | ok _ r₁ =>
    rw [hw] at h
    exact ⟨r₁, rfl, h⟩
  | error e r₁ =>
    rw [hw] at h
    cases h

/-- Whatever the computation writes, the section's name stays. -/
def KeepsName (w : Writer Unit) : Prop :=
  ∀ r r' : Receipt, w.run r = .ok () r' → r'.name = r.name

/-- No part of a computation gives the section another name, so
neither does the whole. -/
theorem KeepsName.bind (h : KeepsName w) (hf : KeepsName (f ())) :
    KeepsName (w >>= f) := by
  intro r r' hrun
  obtain ⟨r₁, hw, hrest⟩ := run_bind_eq_ok hrun
  exact (hf r₁ r' hrest).trans (h r r₁ hw)

/-- A write adds an entry or nothing; the name of the section is never
touched. -/
theorem keepsName_put (key : String) (value : Datum) :
    KeepsName (put key value) := by
  intro r r' hrun
  have hput : Putting r key value (.ok () r') := hrun ▸ putting r key value
  cases hput with
  | stored => rfl

theorem keepsName_putFrame (key : String) (values : List Bytes) :
    KeepsName (putFrame key values) := by
  unfold putFrame
  cases Frame.encode values with
  | error e =>
    intro r r' hrun
    cases hrun
  | ok frame => exact keepsName_put _ _

/-- Recording values is two writes, so it keeps the name as they do. -/
theorem keepsName_putValues (key : String) (values : List Bytes) :
    KeepsName (putValues key values) := by
  unfold putValues
  exact (keepsName_put _ _).bind (keepsName_putFrame _ _)

/-- A receipt is what its computation leaves of a blank one. -/
theorem run_of_write (h : write name w = .ok r) :
    w.run (blank name) = .ok () r := by
  unfold Receipt.write at h
  cases hrun : w.run (blank name) with
  | ok _ r' =>
    rw [hrun] at h
    cases h
    rfl
  | error e r' =>
    rw [hrun] at h
    cases h

/-- Values that were recorded have a frame. So one need not ask again
when they are printed or compared. -/
theorem exists_encode_of_putValues
    (h : (putValues key values).run r = .ok () r') :
    ∃ frame, Frame.encode values = .ok frame := by
  unfold putValues at h
  obtain ⟨r₁, -, hframe⟩ := run_bind_eq_ok h
  unfold putFrame at hframe
  cases hencode : Frame.encode values with
  | ok frame => exact ⟨frame, rfl⟩
  | error e =>
    rw [hencode] at hframe
    cases hframe

end Receipt

/-- Making a receipt asks nobody and writes no line: the job's script
is the digest alone. -/
theorem Job.scripted_receipt {name : String}
    {w : Receipt.Writer Unit} {r : Receipt}
    (h : Receipt.write name w = .ok r) :
    Job.Scripted (Job.receipt name w) (.ok r.digest) := by
  unfold Job.receipt
  rw [h]
  exact Job.scripted_pure _

/-- A receipt that is refused ends the job, and the error is passed on
as the receipt's. -/
theorem Job.scripted_receipt_error {name : String} {w : Receipt.Writer Unit}
    {e : ReceiptError} (h : Receipt.write name w = .error e) :
    Job.Scripted (Job.receipt name w) (.error (.receipt e)) := by
  unfold Job.receipt
  rw [h]
  exact Job.scripted_throw _

-- ====================================================== the program's own

namespace Answer

open Receipt

/-- Counters are stored already, so they can be written as they are. -/
theorem writes_stats (fields : List (String × Json)) :
    Writes (put "stats" (.ofJson (.dict fields))) ["stats"] := by
  obtain ⟨v, hv⟩ := Datum.exists_normalize_ofJson "stats" (.dict fields)
  exact writes_put hv

variable {s : Solution} {pool computed : List UInt8} {e : FrameError}

/-- The receipt of a sweep is written if the pool and the values have
frames, and refused if one of them has none. -/
theorem writes_solveReceipt (hpool : Frame.encode s.pool = .ok pool)
    (hcomputed : Frame.encode s.computed = .ok computed) :
    Writes (solveReceipt s) (["target"] ++ (["pool.count", "pool.hash"] ++
      (["stats"] ++ ["computed.count", "computed.hash"]))) := by
  unfold solveReceipt
  refine (writes_put rfl).bind ((writes_putValues hpool (by decide)).bind
    ((writes_stats _).bind (writes_putValues hcomputed (by decide)) ?_)
      ?_) ?_ <;> decide

/-- Without a frame for the pool the receipt of a sweep ends at the
pool: the counters and the values computed are not come to. -/
theorem refuses_solveReceipt_of_pool (hpool : Frame.encode s.pool = .error e) :
    Refuses (solveReceipt s) (["target"] ++ ["pool.count"]) (.frame e) := by
  unfold solveReceipt
  exact (writes_put rfl).bind_refuses
    ((refuses_putValues hpool).bind _) (by decide)

/-- If only the values computed have no frame, all that stands before
them has been written. -/
theorem refuses_solveReceipt (hpool : Frame.encode s.pool = .ok pool)
    (hcomputed : Frame.encode s.computed = .error e) :
    Refuses (solveReceipt s) (["target"] ++ (["pool.count", "pool.hash"] ++
      (["stats"] ++ ["computed.count"]))) (.frame e) := by
  unfold solveReceipt
  refine (writes_put rfl).bind_refuses
    ((writes_putValues hpool (by decide)).bind_refuses
    ((writes_stats _).bind_refuses (refuses_putValues hcomputed) ?_)
      ?_) ?_ <;> decide

/-- The receipt of a reduction is written once its values have a
frame. -/
theorem writes_reductionReceipt {r : Reduction} {values : List UInt8}
    (hvalues : Frame.encode r.values = .ok values) :
    Writes (reductionReceipt r) (["stats"] ++ ["base.count", "base.hash"]) := by
  unfold reductionReceipt
  refine (writes_stats _).bind (writes_putValues hvalues (by decide)) ?_
  decide

/-- The receipt of a sweep keeps its name, being made of writes only. -/
theorem keepsName_solveReceipt (s : Solution) : KeepsName (solveReceipt s) := by
  unfold solveReceipt
  exact (keepsName_put _ _).bind ((keepsName_putValues _ _).bind
    ((keepsName_put _ _).bind (keepsName_putValues _ _)))

theorem keepsName_reductionReceipt (r : Reduction) :
    KeepsName (reductionReceipt r) := by
  unfold reductionReceipt
  exact (keepsName_put _ _).bind (keepsName_putValues _ _)

/-- Once the sweep has its receipt, the values computed have a frame. -/
theorem exists_encode_computed {r : Receipt}
    (h : write "solve" (solveReceipt s) = .ok r) :
    ∃ frame, Frame.encode s.computed = .ok frame := by
  have hrun := run_of_write h
  unfold solveReceipt at hrun
  obtain ⟨_, -, hrun⟩ := run_bind_eq_ok hrun
  obtain ⟨_, -, hrun⟩ := run_bind_eq_ok hrun
  obtain ⟨_, -, hrun⟩ := run_bind_eq_ok hrun
  exact exists_encode_of_putValues hrun

/-- Once the reduction has its receipt, its values have a frame. -/
theorem exists_encode_values {r : Receipt} {reduction : Reduction}
    (h : write "reduce" (reductionReceipt reduction) = .ok r) :
    ∃ frame, Frame.encode reduction.values = .ok frame := by
  have hrun := run_of_write h
  unfold reductionReceipt at hrun
  obtain ⟨_, -, hrun⟩ := run_bind_eq_ok hrun
  exact exists_encode_of_putValues hrun

/-- The hashes of sections with different names. They are written
under these names, so a name that comes twice would be refused. -/
theorem writes_hashes {digests : List Digest}
    (h : (digests.map Digest.name).Nodup) :
    Writes (digests.forM fun d => put d.name (.str d.hash))
      (digests.map Digest.name) := by
  induction digests with
  | nil =>
    intro r _
    exact ⟨r, rfl, (List.append_nil _).symm⟩
  | cons d digests ih =>
    obtain ⟨hd, hdigests⟩ := List.nodup_cons.1 h
    have hput : Writes (put d.name (.str d.hash)) [d.name] := writes_put rfl
    refine hput.bind (ih hdigests) ?_
    intro name hname hmem
    rw [List.mem_singleton.1 hmem] at hname
    exact hd hname

/-- An answer can be agreed on if its sections have names of their own
and its values a frame. -/
theorem exists_agreement {a : Answer} {values : List UInt8}
    (hnodup : (a.digests.map Digest.name).Nodup)
    (hother : ∀ name ∈ a.digests.map Digest.name, name ≠ "result.count" ∧
      name ≠ "result.hash")
    (hvalues : Frame.encode a.values = .ok values) :
    ∃ r, write "determinism" (agreementReceipt a) = .ok r := by
  have hperm :
      (a.digests.mergeSort fun x y => decide
        (x.name ≤ y.name)).Perm a.digests :=
    List.mergeSort_perm ..
  have hnames := hperm.map Digest.name
  have hwrites : Writes (agreementReceipt a)
      ((a.digests.mergeSort fun x y => decide
        (x.name ≤ y.name)).map Digest.name ++
        ["result.count", "result.hash"]) := by
    unfold agreementReceipt
    refine (writes_hashes (hnames.nodup_iff.2 hnodup)).bind
      (writes_putValues hvalues (by decide)) ?_
    intro key hkey hmem
    obtain ⟨hcount, hhash⟩ := hother key (hnames.mem_iff.1 hmem)
    rcases List.mem_cons.1 hkey with rfl | hkey
    · exact hcount rfl
    · exact hhash (List.mem_singleton.1 hkey)
  exact hwrites.write "determinism"

end Answer

end XorSpan
