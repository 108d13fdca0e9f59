/-
What a frame tells. A list of values has a frame exactly if the values
are of one length and length and number fit their fields. A frame shows
where it ends: of two frames that begin the same text, the lists are the
same and so is what is behind (`bytes_append_inj`). So no two lists have
one frame, and no frame begins another (`encode_outcome`).

The two numbers of the header stand at fixed places and do not wrap, as
they fit. They say how what follows falls into values. Both are needed:
values may be empty, and then the number of them shows nowhere else.
-/
import XorSpan.Proofs.Receipts
import XorSpan.Proofs.Texts

namespace XorSpan.Frame

variable {n n' count count' : Nat} {values values' : List Bytes}
  {frame frame' rest rest' : List UInt8}

-- ============================================================= acceptance

/-- The values are `n` bytes long, and both numbers fit their fields. -/
structure Fits (n : Nat) (values : List Bytes) : Prop where
  size : ∀ v ∈ values, v.size = n
  size_le : n ≤ 0xffff
  length_le : values.length ≤ 0xffffffff

/-- Values that fit have a frame, and it is made of a header and their
bytes. -/
theorem encode_eq_ok_iff : encode values = .ok frame ↔
    Fits (width values) values ∧ frame = bytes (width values) values := by
  constructor
  · intro h
    unfold encode at h
    dsimp only at h
    split at h
    · cases h
    · next hfit =>
      split at h
      · cases h
      · next hsize =>
        split at h
        · cases h
        · next hlength =>
          cases h
          have hfits : Fits (width values) values :=
            ⟨Bytes.misfit?_eq_none_iff.1 hfit, Nat.not_lt.1 hsize,
              Nat.not_lt.1 hlength⟩
          exact ⟨hfits, rfl⟩
  · intro h
    obtain ⟨hfits, rfl⟩ := h
    rw [encode_eq hfits.size hfits.size_le,
      if_neg (Nat.not_lt.2 hfits.length_le)]

/-- And values that do not fit have none. -/
theorem exists_error_iff :
    (∃ e, encode values = .error e) ↔ ¬Fits (width values) values := by
  constructor
  · intro h hfits
    obtain ⟨e, he⟩ := h
    rw [encode_eq_ok_iff.2 ⟨hfits, rfl⟩] at he
    cases he
  · intro h
    cases hencode : encode values with
    | error e => exact ⟨e, rfl⟩
    | ok frame => exact absurd (encode_eq_ok_iff.1 hencode).1 h

/-- What keeps values from having a frame: two lengths among them, a
length or a number that does not fit. -/
theorem not_fits_iff : ¬Fits (width values) values ↔
    (∃ v ∈ values, ∃ w ∈ values, v.size ≠ w.size) ∨
    (∃ v ∈ values, 0xffff < v.size) ∨
      0xffffffff < values.length := by
  constructor
  · intro h
    by_contra hnone
    simp only [not_or, not_exists, not_and, not_not, Nat.not_lt] at hnone
    obtain ⟨heven, hsize, hlength⟩ := hnone
    apply h
    cases values with
    | nil =>
      exact ⟨fun _ hv => absurd hv List.not_mem_nil, Nat.zero_le _, hlength⟩
    | cons w values =>
      -- the first value gives the width
      have hw : w ∈ w :: values := List.mem_cons_self ..
      exact ⟨fun v hv => heven v hv w hw, hsize w hw, hlength⟩
  · intro h hfits
    rcases h with ⟨v, hv, w, hw, hne⟩ | ⟨v, hv, hlong⟩ | hmany
    · exact hne ((hfits.size v hv).trans (hfits.size w hw).symm)
    · rw [hfits.size v hv] at hlong
      exact absurd hfits.size_le (Nat.not_le.2 hlong)
    · exact absurd hfits.length_le (Nat.not_le.2 hmany)

-- ============================================================ the header

/-- What stands before the values. -/
def header (n count : Nat) : List UInt8 :=
  tag.toUTF8.toList ++ (Bytes.ofWord 4 count).toList ++
    (Bytes.ofWord 2 n).toList

theorem bytes_eq (n : Nat) (values : List Bytes) :
    bytes n values = header n values.length ++ values.flatMap Array.toList :=
  rfl

theorem length_header (n count : Nat) : (header n count).length = 10 := by
  have htag : tag.toUTF8.toList.length = 4 :=
    Text.length_toUTF8_of_plain (by decide)
  unfold header
  simp only [List.length_append, htag, Array.length_toList, Bytes.size_ofWord]

/-- Numbers that fit are told by the header, where each stands in a
field of its own width. -/
theorem header_inj (hn : n ≤ 0xffff) (hn' : n' ≤ 0xffff)
    (hcount : count ≤ 0xffffffff)
    (hcount' : count' ≤ 0xffffffff) (h : header n count = header n' count') :
    n = n' ∧ count = count' := by
  unfold header at h
  obtain ⟨hfront, hlast⟩ := List.append_inj' h (by simp)
  have hmiddle := List.append_cancel_left hfront
  rw [Array.toList_inj, Bytes.ofWord_inj (by omega) (by omega)] at hmiddle hlast
  exact ⟨hlast, hmiddle⟩

-- ============================================================ the values

theorem length_payload (h : ∀ v ∈ values, v.size = n) :
    (values.flatMap Array.toList).length = values.length * n := by
  rw [List.length_flatMap, List.map_congr_left
    fun v hv => (Array.length_toList).trans (h v hv),
    List.map_const', List.sum_replicate_nat]

/-- So many values of a length are read off the front of what follows
them. Their number is known from the header. -/
theorem payload_append_inj (h : ∀ v ∈ values, v.size = n)
    (h' : ∀ v ∈ values', v.size = n)
    (hlength : values.length = values'.length)
    (heq : values.flatMap Array.toList ++ rest =
      values'.flatMap Array.toList ++ rest') :
    values = values' ∧ rest = rest' := by
  induction values generalizing values' with
  | nil =>
    rw [List.eq_nil_of_length_eq_zero hlength.symm] at heq ⊢
    exact ⟨rfl, heq⟩
  | cons v values ih =>
    cases values' with
    | nil => cases hlength
    | cons w values' =>
      rw [List.flatMap_cons, List.flatMap_cons, List.append_assoc,
        List.append_assoc] at heq
      have hsize : v.toList.length = w.toList.length := by
        rw [Array.length_toList, Array.length_toList,
          h v (List.mem_cons_self ..), h' w (List.mem_cons_self ..)]
      obtain ⟨hvw, htail⟩ := List.append_inj heq hsize
      obtain ⟨hvalues, hrest⟩ :=
        ih (fun x hx => h x (List.mem_cons_of_mem _ hx))
        (fun x hx => h' x (List.mem_cons_of_mem _ hx))
          (Nat.succ.inj hlength) htail
      exact ⟨by rw [Array.toList_inj.1 hvw, hvalues], hrest⟩

-- ============================================================= the frame

/-- A frame is as long as its header and its values. -/
theorem length_bytes (h : ∀ v ∈ values, v.size = n) :
    (bytes n values).length = 10 + values.length * n := by
  rw [bytes_eq, List.length_append, length_header, length_payload h]

/-- A frame tells its list, and where it ends. That is the strong
form, from which injectivity and the rest follow. -/
theorem bytes_append_inj (hfits : Fits n values) (hfits' : Fits n' values')
    (h : bytes n values ++ rest = bytes n' values' ++ rest') :
    values = values' ∧ rest = rest' := by
  rw [bytes_eq, bytes_eq, List.append_assoc, List.append_assoc] at h
  obtain ⟨hheader, htail⟩ :=
    List.append_inj h (by rw [length_header, length_header])
  obtain ⟨rfl, hlength⟩ :=
    header_inj hfits.size_le hfits'.size_le hfits.length_le
    hfits'.length_le hheader
  exact payload_append_inj hfits.size hfits'.size hlength htail

theorem encode_append_inj (h : encode values = .ok frame)
    (h' : encode values' = .ok frame')
    (heq : frame ++ rest = frame' ++ rest') :
    values = values' ∧ rest = rest' := by
  obtain ⟨hfits, rfl⟩ := encode_eq_ok_iff.1 h
  obtain ⟨hfits', rfl⟩ := encode_eq_ok_iff.1 h'
  exact bytes_append_inj hfits hfits' heq

/-- Framing is refused exactly for values of different lengths, for a
common length above 65535, and for more values than four bytes count.
Else the frame is ten bytes longer than its values together. Lists
with one frame are one list, no frame is the beginning of another, and
with any bytes behind two frames, both the lists and those bytes are
told. -/
theorem encode_outcome :
    (∀ values, (∃ e, encode values = .error e) ↔
      (∃ v ∈ values, ∃ w ∈ values, v.size ≠ w.size) ∨
      (∃ v ∈ values, 0xffff < v.size) ∨
        0xffffffff < values.length) ∧
    (∀ values frame n, encode values = .ok frame → (∀ v ∈ values, v.size = n) →
      frame.length = 10 + values.length * n) ∧
    ∀ values values' frame frame', encode values = .ok frame →
    encode values' = .ok frame' →
      (frame = frame' → values = values') ∧
      (frame <+: frame' → frame = frame') ∧
      ∀ rest rest', frame ++ rest = frame' ++ rest' →
      values = values' ∧ rest = rest' := by
  refine ⟨fun values => exists_error_iff.trans not_fits_iff, ?_, ?_⟩
  · intro values frame n h hsize
    obtain ⟨hfits, rfl⟩ := encode_eq_ok_iff.1 h
    rw [length_bytes hfits.size]
    -- the width is the length of the values, where there are any
    cases values with
    | nil => rw [List.length_nil, Nat.zero_mul, Nat.zero_mul]
    | cons v values =>
      rw [← hsize v (List.mem_cons_self ..),
        hfits.size v (List.mem_cons_self ..)]
  · intro values values' frame frame' h h'
    refine ⟨?_, ?_, fun rest rest' heq => encode_append_inj h h' heq⟩
    · intro heq
      have hends : frame ++ [] = frame' ++ [] := by rw [heq]
      exact (encode_append_inj h h' hends).1
    · intro hprefix
      obtain ⟨rest, hrest⟩ := hprefix
      have hends : frame ++ rest = frame' ++ [] := by
        rw [hrest, List.append_nil]
      have hempty : rest = [] := (encode_append_inj h h' hends).2
      rw [← hrest, hempty, List.append_nil]

/-- No values, and one value of no bytes. -/
theorem encode_outcome_empty : ∃ frame frame', encode [] = .ok frame ∧
    encode [#[]] = .ok frame' ∧ frame.length = 10 ∧ frame'.length = 10 ∧
    frame ≠ frame' ∧
      ¬frame <+: frame' := by
  obtain ⟨-, hlength, hinj⟩ := encode_outcome
  have h : encode [] = .ok (bytes 0 []) :=
    encode_eq_ok_iff.2 ⟨⟨by decide, by decide, by decide⟩, rfl⟩
  have h' : encode [#[]] = .ok (bytes 0 [#[]]) :=
    encode_eq_ok_iff.2 ⟨⟨by decide, by decide, by decide⟩, rfl⟩
  obtain ⟨hsame, hbegins, -⟩ := hinj _ _ _ _ h h'
  have hne : bytes 0 [] ≠ bytes 0 [#[]] :=
    fun heq => absurd (hsame heq) (by decide)
  exact ⟨_, _, h, h', hlength _ _ 0 h (by decide),
    hlength _ _ 0 h' (by decide), hne,
    fun hprefix => hne (hbegins hprefix)⟩

end XorSpan.Frame
