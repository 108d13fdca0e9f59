/-
The canonical text tells a value up to the order of its dictionaries'
entries: two values without repeated keys have one text exactly if they
agree (`canonical_eq_iff`).

Texts are compared with more text behind them. A value's text shows by
its first character of which kind it is, and where it ends, as long as no
numeral follows a number (`Ends`); inside a value a comma, a colon or a
closing bracket follows. So of two values with the same text, text behind
included, one part after the other agrees (`agree_of_chars_append`).
-/
import Mathlib.Data.List.Sort
import Std.Data.String.ToInt
import XorSpan.Json.Canonical
import XorSpan.Proofs.Json.Agreement

namespace XorSpan.Json

variable {α β : Type} {a b : Json} {c d : Char} {m n : Int} {s t : String}
variable {rest rest' : List Char}

-- =============================================================== strings

/-- Every character that is escaped. -/
def escapedChars : List Char := '"' :: '\\' :: (List.range 32).map Char.ofNat

/-- A character that need not be escaped stands for itself. -/
theorem escapeChar_of_not_mem (h : c ∉ escapedChars) : escapeChar c = [c] := by
  have hquotes : ¬(c = '"' ∨ c = '\\') := by
    rintro (rfl | rfl)
    · exact h (by decide)
    · exact h (by decide)
  have hcontrol : 32 ≤ c.toNat := by
    by_contra hlt
    refine h (List.mem_cons_of_mem
      _ (List.mem_cons_of_mem _ (List.mem_map.2 ⟨c.toNat, ?_, ?_⟩)))
    · exact List.mem_range.2 (Nat.lt_of_not_le hlt)
    · exact Char.ofNat_toNat c
  have hnewline : c ≠ '\n' := by rintro rfl; exact absurd hcontrol (by decide)
  have hreturn : c ≠ '\r' := by rintro rfl; exact absurd hcontrol (by decide)
  have htab : c ≠ '\t' := by rintro rfl; exact absurd hcontrol (by decide)
  unfold escapeChar
  rw [if_neg hquotes, if_neg hnewline, if_neg hreturn, if_neg htab,
    if_neg (by omega), if_neg (by omega), if_neg (by omega)]

/-- Escapes begin with a backslash, which is itself escaped, so they
are not mistaken for characters that stand for themselves. -/
theorem escapeChar_head :
    ∀ c ∈ escapedChars, (escapeChar c).head? = some '\\' := by
  have hall : (escapedChars.all fun c => (escapeChar c).head? == some '\\') =
      true := by
    decide +kernel
  intro c hc
  exact beq_iff_eq.1 (List.all_eq_true.1 hall c hc)

/-- Among the escaped characters no escape begins another. There are
few enough of them to look at every pair. -/
theorem escaped_eq_of_begins : ∀ c ∈ escapedChars, ∀ d ∈ escapedChars,
    escapeChar c <+: escapeChar d → c = d := by
  have hall : (escapedChars.all fun c => escapedChars.all fun d =>
      !(escapeChar c).isPrefixOf (escapeChar d) || c == d) = true := by
    decide +kernel
  intro c hc d hd hbegins
  have hpair := List.all_eq_true.1 (List.all_eq_true.1 hall c hc) d hd
  rw [List.isPrefixOf_iff_prefix.2 hbegins] at hpair
  exact beq_iff_eq.1 hpair

/-- No escape begins another. Where one of the two characters is not
escaped, the other would begin with a backslash or be the same. -/
theorem eq_of_escape_begins (h : escapeChar c <+: escapeChar d) : c = d := by
  by_cases hc : c ∈ escapedChars
  · by_cases hd : d ∈ escapedChars
    · exact escaped_eq_of_begins c hc d hd h
    · obtain ⟨more, hmore⟩ := h
      have hhead := escapeChar_head c hc
      rw [escapeChar_of_not_mem hd] at hmore
      cases hesc : escapeChar c with
      | nil => rw [hesc] at hhead; cases hhead
      | cons x xs =>
        rw [hesc] at hhead hmore
        cases hhead
        cases (List.cons.inj hmore).1
        exact absurd (by decide) hd
  · rw [escapeChar_of_not_mem hc] at h
    by_cases hd : d ∈ escapedChars
    · obtain ⟨more, hmore⟩ := h
      have hhead := escapeChar_head d hd
      rw [← hmore] at hhead
      cases hhead
      exact absurd (by decide) hc
    · rw [escapeChar_of_not_mem hd] at h
      exact (List.cons_prefix_cons.1 h).1

/-- An escape tells its character and where it ends. -/
theorem escapeChar_append (h : escapeChar c ++ rest = escapeChar d ++ rest') :
    c = d ∧ rest = rest' := by
  have hcd : c = d := by
    rcases List.prefix_or_prefix_of_prefix
      (List.prefix_append (escapeChar c) rest)
      (h ▸ List.prefix_append (escapeChar d) rest') with hcd | hdc
    · exact eq_of_escape_begins hcd
    · exact (eq_of_escape_begins hdc).symm
  subst hcd
  exact ⟨rfl, List.append_cancel_left h⟩

/-- The quote that closes a string does not begin an escape. It would
be a quote that is not escaped, and a quote is. -/
theorem escapeChar_append_ne : escapeChar c ++ rest ≠ '"' :: rest' := by
  intro h
  by_cases hc : c ∈ escapedChars
  · have hhead := escapeChar_head c hc
    cases hesc : escapeChar c with
    | nil => rw [hesc] at hhead; cases hhead
    | cons x xs =>
      rw [hesc] at hhead h
      cases hhead
      cases h
  · rw [escapeChar_of_not_mem hc] at h
    cases h
    exact hc (List.mem_cons_self ..)

/-- So do the escapes of a whole text, up to the quote that closes it. -/
theorem escapes_append {cs ds : List Char}
    (h : cs.flatMap escapeChar ++ '"' :: rest =
      ds.flatMap escapeChar ++ '"' :: rest') :
    cs = ds ∧ rest = rest' := by
  induction cs generalizing ds with
  | nil =>
    cases ds with
    | nil => exact ⟨rfl, (List.cons.inj h).2⟩
    | cons d ds =>
      rw [List.flatMap_cons, List.append_assoc] at h
      exact absurd h.symm escapeChar_append_ne
  | cons c cs ih =>
    cases ds with
    | nil =>
      rw [List.flatMap_cons, List.append_assoc] at h
      exact absurd h escapeChar_append_ne
    | cons d ds =>
      rw [List.flatMap_cons, List.flatMap_cons, List.append_assoc,
        List.append_assoc] at h
      obtain ⟨rfl, htail⟩ := escapeChar_append h
      obtain ⟨rfl, hrest⟩ := ih htail
      exact ⟨rfl, hrest⟩

/-- A quoted text tells the text, and where the quotes end. -/
theorem quote_append (h : quote s ++ rest = quote t ++ rest') :
    s = t ∧ rest = rest' := by
  unfold quote at h
  rw [List.append_assoc, List.append_assoc] at h
  obtain ⟨hchars, hrest⟩ := escapes_append (List.cons.inj h).2
  exact ⟨String.toList_inj.1 hchars, hrest⟩

-- =============================================================== numbers

/-- A character of numbers. -/
def isNumeral (c : Char) : Bool := c.isDigit || c == '-'

/-- A number that stands before `rest` ends there. -/
def Ends (rest : List Char) : Prop := rest.takeWhile isNumeral = []

/-- There are only digits and a sign in a number's text. -/
theorem isNumeral_of_mem_toString (h : c ∈ (toString n).toList) :
    isNumeral c = true := by
  have hdigits : ∀ m : Nat, c ∈ m.repr.toList → isNumeral c = true := by
    intro m hm
    rw [Nat.toList_repr] at hm
    exact Bool.or_eq_true_iff.2
      (.inl (Nat.isDigit_of_mem_toDigits (by decide) (by decide) hm))
  rw [Int.toString_eq_repr, Int.repr_eq_if] at h
  split at h
  · exact hdigits _ h
  · rw [String.toList_append] at h
    rcases List.mem_append.1 h with hsign | hm
    · cases List.mem_singleton.1 hsign
      rfl
    · exact hdigits _ hm

/-- A number's text has no mark at its end. It tells the number if
what follows is no digit, as it is everywhere in a canonical text. -/
theorem toString_append (hends : Ends rest) (hends' : Ends rest')
    (h : (toString m).toList ++ rest = (toString n).toList ++ rest') :
    m = n ∧ rest = rest' := by
  have htext : (toString m).toList = (toString n).toList := by
    have htake := congrArg (List.takeWhile isNumeral) h
    rw [List.takeWhile_append_of_pos fun c hc => isNumeral_of_mem_toString hc,
      List.takeWhile_append_of_pos fun c hc =>
        isNumeral_of_mem_toString hc, hends, hends',
      List.append_nil, List.append_nil] at htake
    exact htake
  rw [htext] at h
  refine ⟨?_, List.append_cancel_left h⟩
  rw [String.toList_inj, Int.toString_eq_repr, Int.toString_eq_repr] at htext
  exact Int.repr_inj.1 htext

/-- No number has an empty text. -/
theorem exists_toString_cons (n : Int) :
    ∃ c cs, (toString n).toList = c :: cs ∧ isNumeral c = true := by
  have hne : (toString n).toList ≠ [] := by
    rw [Int.toString_eq_repr, Int.repr_eq_if]
    split
    · rw [Nat.toList_repr]
      exact Nat.toDigits_ne_nil
    · rw [String.toList_append]
      exact List.append_ne_nil_of_left_ne_nil (by decide) _
  obtain ⟨c, cs, hcons⟩ := List.exists_cons_of_ne_nil hne
  refine ⟨c, cs, hcons, isNumeral_of_mem_toString (n := n) ?_⟩
  rw [hcons]
  exact List.mem_cons_self ..

-- ================================================================== kinds

/-- Which kind of value a character opens, by the number of its
constructor. -/
def opens (c : Char) : Nat :=
  if c = 'n' then 0
  else if c = 't' ∨ c = 'f' then 1
  else if isNumeral c then 2
  else if c = '"' then 3
  else if c = '[' then 4
  else 5

/-- A digit or a sign begins a number and no other kind of value. -/
theorem opens_of_isNumeral (h : isNumeral c = true) : opens c = 2 := by
  have hnull : c ≠ 'n' := by rintro rfl; exact absurd h (by decide)
  have hbool : ¬(c = 't' ∨ c = 'f') := by
    rintro (rfl | rfl)
    · exact absurd h (by decide)
    · exact absurd h (by decide)
  unfold opens
  rw [if_neg hnull, if_neg hbool, if_pos h]

/-- The first character of a text shows the kind of its value. Texts
of two kinds therefore differ at once, and only values of one kind
have to be compared. -/
theorem exists_chars_cons :
    ∀ v : Json, ∃ c cs, v.chars = c :: cs ∧ opens c = v.ctorIdx
  | .null => ⟨_, _, by rw [chars], rfl⟩
  | .bool true => ⟨_, _, by rw [chars], rfl⟩
  | .bool false => ⟨_, _, by rw [chars], rfl⟩
  | .int n => by
      obtain ⟨c, cs, hcons, hc⟩ := exists_toString_cons n
      exact ⟨c, cs, by rw [chars, hcons], opens_of_isNumeral hc⟩
  | .str s => ⟨_, _, by rw [chars, quote, List.cons_append], rfl⟩
  | .list items => ⟨_, _, by rw [chars, List.cons_append], rfl⟩
  | .dict entries => ⟨_, _, by rw [chars, List.cons_append], rfl⟩

/-- Values of different kinds differ in their texts. That holds
whatever follows the texts. -/
theorem ctorIdx_eq (h : a.chars ++ rest = b.chars ++ rest') :
    a.ctorIdx = b.ctorIdx := by
  obtain ⟨c, cs, hc, hopens⟩ := exists_chars_cons a
  obtain ⟨d, ds, hd, hopens'⟩ := exists_chars_cons b
  rw [hc, hd] at h
  rw [← hopens, ← hopens', (List.cons.inj h).1]

/-- No value begins with what closes a list. So an empty list is not
mistaken for one with an item. -/
theorem chars_append_ne : a.chars ++ rest ≠ ']' :: rest' := by
  obtain ⟨c, cs, hc, hopens⟩ := exists_chars_cons a
  intro h
  rw [hc] at h
  cases h
  cases a with
  | dict entries =>
    rw [chars] at hc
    cases hc
  | _ => cases hopens

-- ============================================================== sequences

/-- A comma before each text. -/
def more (texts : List (List Char)) : List Char := texts.flatMap (',' :: ·)

/-- The first text stands alone, and each of the others behind a
comma. -/
theorem commas_cons (text : List Char) (texts : List (List Char)) :
    commas (text :: texts) = text ++ more texts := by
  induction texts generalizing text with
  | nil =>
    rw [commas]
    exact (List.append_nil text).symm
  | cons u texts ih =>
    rw [commas, ih]
    rfl

section Sequences

variable {f : α → List Char} {R : α → α → Prop} {xs ys : List α} {z : Char}

/-- What follows an item of a sequence that `z` closes. It begins with
a comma or with `z`, and neither belongs to a number. -/
theorem ends_more (hz : isNumeral z = false) (texts : List (List Char)) :
    Ends (more texts ++ z :: rest) := by
  unfold Ends
  cases texts with
  | nil =>
    exact List.takeWhile_cons_of_neg (by rw [hz]; exact Bool.false_ne_true)
  | cons text texts => exact List.takeWhile_cons_of_neg (by decide)

/-- What stands behind the first item tells the other items, if each
item's text tells where it ends. The induction is on both lists at
once: a comma means that there is one more, and what closes the
sequence is not a comma. -/
theorem forall₂_of_more (hz : isNumeral z = false) (hcomma : z ≠ ',')
    (hitem : ∀ x ∈ xs, ∀ y rest rest', Ends rest → Ends rest' →
      f x ++ rest = f y ++ rest' → R x y ∧ rest = rest')
    (h : more (xs.map f) ++ z :: rest = more (ys.map f) ++ z :: rest') :
    List.Forall₂ R xs ys ∧ rest = rest' := by
  induction xs generalizing ys with
  | nil =>
    cases ys with
    | nil => exact ⟨.nil, (List.cons.inj h).2⟩
    | cons y ys => exact absurd (List.cons.inj h).1 hcomma
  | cons x xs ih =>
    cases ys with
    | nil => exact absurd (List.cons.inj h).1.symm hcomma
    | cons y ys =>
      simp only [more, List.map_cons, List.flatMap_cons, List.cons_append,
        List.append_assoc, List.cons.injEq, true_and] at h
      obtain ⟨hxy, htail⟩ := hitem x
        (List.mem_cons_self ..) y _ _ (ends_more hz _)
        (ends_more hz _) h
      obtain ⟨hrel, hrest⟩ := ih
        (fun x' hx' => hitem x' (List.mem_cons_of_mem _ hx')) htail
      exact ⟨.cons hxy hrel, hrest⟩

/-- A sequence of texts that each tell where they end tells its items.
That is the one argument for lists and for dictionaries; they differ
in what closes them and in what stands for an item. -/
theorem forall₂_of_commas (hz : isNumeral z = false) (hcomma : z ≠ ',')
    (hfirst : ∀ x rest rest', f x ++ rest ≠ z :: rest')
    (hitem : ∀ x ∈ xs, ∀ y rest rest', Ends rest → Ends rest' →
      f x ++ rest = f y ++ rest' → R x y ∧ rest = rest')
    (h : commas (xs.map f) ++ z :: rest = commas (ys.map f) ++ z :: rest') :
    List.Forall₂ R xs ys ∧ rest = rest' := by
  cases xs with
  | nil =>
    cases ys with
    | nil => exact ⟨.nil, (List.cons.inj h).2⟩
    | cons y ys =>
      rw [List.map_cons, commas_cons, List.append_assoc] at h
      exact absurd h.symm (hfirst y _ _)
  | cons x xs =>
    cases ys with
    | nil =>
      rw [List.map_cons, commas_cons, List.append_assoc] at h
      exact absurd h (hfirst x _ _)
    | cons y ys =>
      rw [List.map_cons, List.map_cons, commas_cons, commas_cons,
        List.append_assoc, List.append_assoc] at h
      obtain ⟨hxy, htail⟩ := hitem x
        (List.mem_cons_self ..) y _ _ (ends_more hz _)
        (ends_more hz _) h
      obtain ⟨hrel, hrest⟩ := forall₂_of_more hz hcomma
        (fun x' hx' => hitem x' (List.mem_cons_of_mem _ hx')) htail
      exact ⟨.cons hxy hrel, hrest⟩

end Sequences

-- ================================================================ entries

/-- The text of a dictionary's entry. -/
def entryText (e : String × Json) : List Char := quote e.1 ++ ':' :: e.2.chars

/-- The items of a list are written one by one. -/
theorem itemChars_eq_map (items : List Json) :
    itemChars items = items.map chars := by
  induction items with
  | nil => rw [itemChars, List.map_nil]
  | cons v items ih => rw [itemChars, List.map_cons, ih]

theorem entryChars_eq_map (entries : List (String × Json)) :
    entryChars entries = entries.map fun e => (e.1, entryText e) := by
  induction entries with
  | nil => rw [entryChars, List.map_nil]
  | cons e entries ih =>
    rw [entryChars, List.map_cons, ih]
    rfl

/-- The texts of sorted entries stand as the entries do when sorted.
It is by their keys either way, so it does not matter whether entries
are written out before they are sorted or after. -/
theorem sorted_texts (entries : List (String × Json)) :
    (sortEntries (entryChars entries)).map (·.2) =
      (sortEntries entries).map entryText := by
  have hmap : sortEntries (entryChars entries) =
      (sortEntries entries).map fun e => (e.1, entryText e) := by
    have hsort := List.map_mergeSort (l := entries)
      (f := fun e => (e.1, entryText e))
      (r := fun e e' => decide (e.1 ≤ e'.1))
        (s := fun e e' => decide (e.1 ≤ e'.1))
      fun _ _ _ _ => rfl
    unfold sortEntries
    rw [entryChars_eq_map, hsort]
  rw [hmap, List.map_map]
  rfl

/-- A dictionary is written with its entries sorted by their keys. -/
theorem chars_dict (entries : List (String × Json)) :
    chars (.dict entries) =
      '\x7b' :: commas ((sortEntries entries).map entryText) ++ ['\x7d'] := by
  rw [chars, sorted_texts]

/-- A list is written in its own order. -/
theorem chars_list (items : List Json) :
    chars (.list items) = '[' :: commas (items.map chars) ++ [']'] := by
  rw [chars, itemChars_eq_map]

/-- Sorting forgets the order in which entries without a key twice
stand. The sort is stable, so with a key twice it would not. -/
theorem sortEntries_eq_of_perm {as bs : List (String × α)} (h : as.Perm bs)
    (hnodup : (as.map Prod.fst).Nodup) : sortEntries as = sortEntries bs := by
  have hle : ∀ x y z : String × α, decide (x.1 ≤ y.1) = true →
      decide (y.1 ≤ z.1) = true →
      decide (x.1 ≤ z.1) = true := by
    intro x y z hxy hyz
    exact decide_eq_true (String.le_trans (of_decide_eq_true hxy)
      (of_decide_eq_true hyz))
  have htotal : ∀ x y : String × α,
      (decide (x.1 ≤ y.1) || decide (y.1 ≤ x.1)) = true := by
    intro x y
    rw [Bool.or_eq_true_iff, decide_eq_true_eq, decide_eq_true_eq]
    exact String.le_total x.1 y.1
  have hsorted : ∀ l : List (String × α),
      (sortEntries l).Pairwise fun x y => decide (x.1 ≤ y.1) = true :=
    fun l => List.pairwise_mergeSort hle htotal l
  have hperm : ∀ l : List (String × α), (sortEntries l).Perm l :=
    fun l => List.mergeSort_perm ..
  refine List.Perm.eq_of_pairwise ?_ (hsorted as) (hsorted bs)
    ((hperm as).trans (h.trans (hperm bs).symm))
  intro x y hx hy hxy hyx
  have hkey : x.1 = y.1 := String.le_antisymm (of_decide_eq_true hxy)
    (of_decide_eq_true hyx)
  exact List.inj_on_of_nodup_map hnodup ((hperm as).mem_iff.1 hx)
    (h.mem_iff.2 ((hperm bs).mem_iff.1 hy)) hkey

/-- So insertion sort, which can be evaluated, sorts them in the same
way. -/
theorem sortEntries_eq_insertionSort {entries : List (String × α)}
    (h : (entries.map Prod.fst).Nodup) :
    sortEntries entries = entries.insertionSort fun e f => e.1 ≤ f.1 := by
  have : Std.Total fun (e f : String × α) => e.1 ≤ f.1 :=
    ⟨fun e f => String.le_total e.1 f.1⟩
  have : IsTrans (String × α) fun e f => e.1 ≤ f.1 :=
    ⟨fun _ _ _ => String.le_trans⟩
  have hperm := List.perm_insertionSort
    (fun e f : String × α => e.1 ≤ f.1) entries
  have hsorted := List.pairwise_insertionSort
    (fun e f : String × α => e.1 ≤ f.1) entries
  rw [sortEntries_eq_of_perm hperm.symm h]
  exact List.mergeSort_of_pairwise (hsorted.imp decide_eq_true)

-- ================================================================ the text

/-- The text of a value tells it up to the order of entries, and where
it ends. -/
theorem agree_of_chars_append :
    ∀ a b : Json, ∀ rest rest', Ends rest → Ends rest' →
    a.chars ++ rest = b.chars ++ rest' → Agree a b ∧ rest = rest' := by
  intro a
  induction a using induction with
  | null =>
    intro b rest rest' _ _ h
    have hkind := ctorIdx_eq h
    cases b with
    | null => exact ⟨.null, List.append_cancel_left h⟩
    | _ => cases hkind
  | bool x =>
    intro b rest rest' _ _ h
    have hkind := ctorIdx_eq h
    cases b with
    | bool y =>
      cases x <;> cases y
      · exact ⟨.bool _, List.append_cancel_left h⟩
      · rw [chars, chars] at h
        cases h
      · rw [chars, chars] at h
        cases h
      · exact ⟨.bool _, List.append_cancel_left h⟩
    | _ => cases hkind
  | int m =>
    intro b rest rest' hends hends' h
    have hkind := ctorIdx_eq h
    cases b with
    | int n =>
      rw [chars, chars] at h
      obtain ⟨rfl, hrest⟩ := toString_append hends hends' h
      exact ⟨.int m, hrest⟩
    | _ => cases hkind
  | str s =>
    intro b rest rest' _ _ h
    have hkind := ctorIdx_eq h
    cases b with
    | str t =>
      rw [chars, chars] at h
      obtain ⟨rfl, hrest⟩ := quote_append h
      exact ⟨.str s, hrest⟩
    | _ => cases hkind
  | list items ih =>
    intro b rest rest' _ _ h
    have hkind := ctorIdx_eq h
    cases b with
    | list items' =>
      rw [chars_list, chars_list, List.append_assoc, List.append_assoc] at h
      obtain ⟨hrel, hrest⟩ := forall₂_of_commas (R := Agree)
        (by decide) (by decide)
        (fun _ _ _ => chars_append_ne) ih (List.cons.inj h).2
      exact ⟨.list hrel, hrest⟩
    | _ => cases hkind
  | dict entries ih =>
    intro b rest rest' _ _ h
    have hkind := ctorIdx_eq h
    cases b with
    | dict entries' =>
      rw [chars_dict, chars_dict, List.append_assoc, List.append_assoc] at h
      have hperm : ∀ l : List (String × Json), (sortEntries l).Perm l :=
        fun l => List.mergeSort_perm ..
      have hentry : ∀ e ∈ sortEntries entries, ∀ e' rest rest',
          Ends rest → Ends rest' →
          entryText e ++ rest = entryText e' ++ rest' →
            (e.1 = e'.1 ∧ Agree e.2 e'.2) ∧ rest = rest' := by
        intro e he e' rest rest' hends hends' htext
        unfold entryText at htext
        rw [List.append_assoc, List.append_assoc] at htext
        obtain ⟨hkey, hvalue⟩ := quote_append htext
        obtain ⟨hagree, hrest⟩ :=
          ih e ((hperm entries).mem_iff.1 he) e'.2 rest rest' hends hends'
          (List.cons.inj hvalue).2
        exact ⟨⟨hkey, hagree⟩, hrest⟩
      have hfirst : ∀ e rest rest', entryText e ++ rest ≠ '\x7d' :: rest' := by
        intro e rest rest' htext
        cases htext
      obtain ⟨hrel, hrest⟩ := forall₂_of_commas (by decide)
        (by decide) hfirst hentry
        (List.cons.inj h).2
      obtain ⟨hkeys, hvalues⟩ := forall₂_entries_iff.1 hrel
      exact ⟨.dict (hperm entries).symm (hperm entries').symm hkeys hvalues,
        hrest⟩
    | _ => cases hkind

/-- Items that are related one by one are mapped to the same, if
related items are. -/
theorem map_eq_of_forall₂ {R : α → α → Prop} {f : α → β} {xs ys : List α}
    (h : List.Forall₂ R xs ys) (hf : ∀ x ∈ xs, ∀ y ∈ ys, R x y → f x = f y) :
    xs.map f = ys.map f := by
  induction h with
  | nil => rfl
  | @cons x y xs ys hxy _ ih =>
    have hhead : f x = f y :=
      hf x (List.mem_cons_self ..) y (List.mem_cons_self ..) hxy
    have htail : xs.map f = ys.map f := by
      apply ih
      intro x' hx' y' hy'
      exact hf x' (List.mem_cons_of_mem _ hx') y' (List.mem_cons_of_mem _ hy')
    rw [List.map_cons, List.map_cons, hhead, htail]

/-- Values without repeated keys that agree have one text. The
induction is on both values; entries are put in the same order first. -/
theorem chars_eq_of_agree :
    ∀ a b : Json, DistinctKeys a → DistinctKeys b → Agree a b →
    a.chars = b.chars := by
  intro a
  induction a using induction with
  | null | bool | int | str =>
    intro b _ _ h
    cases h
    rfl
  | list items ih =>
    rintro _ (_ | _ | _ | _ | hdistinct) hb (_ | _ | _ | _ | hitems)
    cases hb with
    | list hdistinct' =>
      rw [chars_list, chars_list, map_eq_of_forall₂ hitems]
      intro v hv w hw
      exact ih v hv w (hdistinct v hv) (hdistinct' w hw)
  | dict entries ih =>
    intro b ha hb h
    cases h with
    | @dict _ entries' es es' left right keys values =>
      cases ha with
      | dict hnodup hdistinct =>
        cases hb with
        | dict hnodup' hdistinct' =>
          have htexts : es.map (fun e => (e.1, entryText e)) =
              es'.map fun e => (e.1, entryText e) := by
            apply map_eq_of_forall₂ (forall₂_entries_iff.2 ⟨keys, values⟩)
            rintro e he e' he' ⟨hkey, hagree⟩
            have hin := left.mem_iff.2 he
            have hvalue : e.2.chars = e'.2.chars :=
              ih e hin e'.2 (hdistinct e hin)
                (hdistinct' e' (right.mem_iff.2 he')) hagree
            unfold entryText
            rw [hkey, hvalue]
          have hperm : (entryChars entries).Perm (entryChars entries') := by
            rw [entryChars_eq_map, entryChars_eq_map]
            apply (left.map _).trans
            rw [htexts]
            exact (right.map _).symm
          have hkeys : ((entryChars entries).map Prod.fst).Nodup := by
            rw [entryChars_eq_map, List.map_map]
            exact hnodup
          rw [chars, chars, sortEntries_eq_of_perm hperm hkeys]

/-- Without repeated keys, values have one canonical text exactly if
they agree. -/
theorem canonical_eq_iff (ha : DistinctKeys a) (hb : DistinctKeys b) :
    a.canonical = b.canonical ↔ Agree a b := by
  unfold canonical
  rw [String.ofList_inj]
  constructor
  · intro h
    exact (agree_of_chars_append a b [] [] rfl rfl (congrArg (· ++ []) h)).1
  · exact chars_eq_of_agree a b ha hb

end XorSpan.Json
