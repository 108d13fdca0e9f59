/-
How a text falls into lines. A line feed ends one, a return does, and a
return with a feed behind it does so once; nothing else ends a line. What
is left behind the last terminator is a line if there is anything left
(`FallsInto`).

Every text falls into lines in one way, and the reader finds them
(`fallsInto_iff`). Lines that are written with one terminator throughout
are found again, whichever of the three it is (`fallsInto_flatMap`).
-/
import XorSpan.Text.Lines

namespace XorSpan.Text

variable {text line ending rest : List Char} {ls : List (List Char)} {c : Char}

/-- No line ends within these characters. -/
def Unbroken (line : List Char) : Prop := ∀ c ∈ line, c ≠ '\n' ∧ c ≠ '\r'

/-- What ends a line. -/
inductive Terminator : List Char → Prop where
  | feed : Terminator ['\n']
  | return : Terminator ['\r']
  | pair : Terminator ['\r', '\n']

/-- The lines of a text. A feed behind a return belongs to it. -/
inductive FallsInto : List Char → List (List Char) → Prop where
  | nil : FallsInto [] []
  | last {line : List Char} (unbroken : Unbroken line) (nonempty : line ≠ []) :
      FallsInto line [line]
  | line {line ending rest : List Char} {ls : List (List Char)}
      (unbroken : Unbroken line)
      (ends : Terminator ending) (whole : ending = ['\r'] →
        rest.head? ≠ some '\n')
      (later : FallsInto rest ls) :
      FallsInto (line ++ ending ++ rest) (line :: ls)

-- =============================================================== reading

namespace LineScan

variable {scan : LineScan}

/-- The lines that a scan has found. -/
def found (scan : LineScan) : List (List Char) :=
  match scan.running.reverse with
  | [] => scan.ended.reverse
  | rest => scan.ended.reverse ++ [rest]

theorem run_cons (hfeed : c ≠ '\n') (hreturn : c ≠ '\r') :
    scan.run (c :: rest) = run ⟨scan.ended, c :: scan.running⟩ rest := by
  rw [run, if_neg (not_or.2 ⟨hfeed, hreturn⟩)]
  intro _ heq
  exact absurd heq hreturn

/-- Characters that end no line run on. They are put on the line that
is running. -/
theorem run_unbroken (h : Unbroken line) :
    scan.run (line ++ rest) =
      run ⟨scan.ended, line.reverse ++ scan.running⟩ rest := by
  induction line generalizing scan with
  | nil => rfl
  | cons c line ih =>
    obtain ⟨hc, hline⟩ := List.forall_mem_cons.1 h
    rw [List.cons_append, run_cons hc.1 hc.2, ih hline, List.reverse_cons,
      List.append_assoc]
    rfl

/-- A terminator closes the line. A carriage return in front of a line
feed is not one by itself. -/
theorem run_terminator (h : Terminator ending)
    (hwhole : ending = ['\r'] → rest.head? ≠ some '\n') :
    scan.run (ending ++ rest) = scan.close.run rest := by
  cases h with
  | feed =>
    rw [List.singleton_append, run, if_pos (.inl rfl)]
    intro _ heq
    cases heq
  | «return» =>
    rw [List.singleton_append, run, if_pos (.inr rfl)]
    intro _ _ heq
    rw [heq] at hwhole
    exact hwhole rfl rfl
  | pair => rfl

/-- The scan finds the lines that a text falls into. The induction is
along the lines, and what was found before is kept free. -/
theorem found_run (h : FallsInto text ls) (hscan : scan.running = []) :
    (scan.run text).found = scan.ended.reverse ++ ls := by
  induction h generalizing scan with
  | nil =>
    rw [run, found, hscan, List.append_nil]
    rfl
  | @last line unbroken nonempty =>
    have hrun : scan.run line = ⟨scan.ended, line.reverse⟩ := by
      have happend : scan.run (line ++ []) =
          run ⟨scan.ended, line.reverse ++ scan.running⟩ [] :=
        run_unbroken unbroken
      rw [List.append_nil, hscan, List.append_nil] at happend
      exact happend
    rw [hrun, found, List.reverse_reverse]
    cases line with
    | nil => exact absurd rfl nonempty
    | cons c line => rfl
  | @line line ending rest ls unbroken ends whole _ ih =>
    rw [List.append_assoc, run_unbroken unbroken,
      run_terminator ends whole, ih rfl, hscan, List.append_nil, close,
      List.reverse_reverse, List.reverse_cons, List.append_assoc]
    rfl

end LineScan

theorem lines_eq (text : List Char) :
    lines text = (LineScan.run ⟨[], []⟩ text).found := by
  unfold lines splitLines LineScan.found
  generalize LineScan.run ⟨[], []⟩ text = scan
  dsimp only
  cases scan.running.reverse <;> rfl

theorem lines_of_fallsInto (h : FallsInto text ls) : lines text = ls := by
  rw [lines_eq, LineScan.found_run h rfl]
  rfl

-- ============================================================= splitting

/-- Up to its first terminator a text is unbroken. That gives the
first line of any text. -/
theorem exists_unbroken (text : List Char) :
    ∃ line rest, text = line ++ rest ∧ Unbroken line ∧
    ∀ c, rest.head? = some c → c = '\n' ∨ c = '\r' := by
  induction text with
  | nil => exact ⟨[], [], rfl, List.forall_mem_nil _, fun c hc => nomatch hc⟩
  | cons c text ih =>
    by_cases hc : c = '\n' ∨ c = '\r'
    · refine ⟨[], c :: text, rfl, List.forall_mem_nil _, ?_⟩
      intro d hd
      cases hd
      exact hc
    · obtain ⟨line, rest, rfl, hline, hrest⟩ := ih
      exact ⟨c :: line, rest, rfl,
        List.forall_mem_cons.2 ⟨not_or.1 hc, hline⟩, hrest⟩

theorem exists_fallsInto (text : List Char) : ∃ ls, FallsInto text ls := by
  induction hn : text.length using Nat.strongRecOn generalizing text with
  | _ n ih =>
    subst hn
    obtain ⟨line, rest, rfl, hline, hrest⟩ := exists_unbroken text
    -- whatever follows a terminator is shorter than the text
    have hends : ∀ ending later, Terminator ending → rest = ending ++ later →
        (ending = ['\r'] → later.head? ≠ some '\n') →
        ∃ ls, FallsInto (line ++ rest) ls := by
      intro ending later hending heq hwhole
      have hlength : later.length < (line ++ rest).length := by
        have hpos : 0 < ending.length := by cases hending <;> decide
        rw [heq, List.length_append, List.length_append]
        omega
      obtain ⟨ls, hls⟩ := ih _ hlength later rfl
      rw [heq, ← List.append_assoc]
      exact ⟨_, .line hline hending hwhole hls⟩
    cases rest with
    | nil =>
      rw [List.append_nil]
      by_cases hnil : line = []
      · rw [hnil]
        exact ⟨_, .nil⟩
      · exact ⟨_, .last hline hnil⟩
    | cons c rest =>
      rcases hrest c rfl with rfl | rfl
      · exact hends ['\n'] rest .feed rfl fun heq => nomatch heq
      · by_cases hpair : rest.head? = some '\n'
        · obtain ⟨later, rfl⟩ := List.head?_eq_some_iff.1 hpair
          exact hends ['\r', '\n'] later .pair rfl fun heq => nomatch heq
        · exact hends ['\r'] rest .return rfl fun _ => hpair

/-- Every text falls into lines in one way, the one the reader finds.
So one can speak of its lines without the scan. -/
theorem fallsInto_iff : FallsInto text ls ↔ lines text = ls := by
  constructor
  · exact lines_of_fallsInto
  · intro h
    obtain ⟨ls', hls'⟩ := exists_fallsInto text
    rw [← h, lines_of_fallsInto hls']
    exact hls'

-- ============================================================== endings

/-- Written with any one terminator, lines are found again. It is the
same for all three, which is why they can be exchanged. -/
theorem fallsInto_flatMap (hls : ∀ line ∈ ls, Unbroken line)
    (hending : Terminator ending) :
    FallsInto (ls.flatMap (· ++ ending)) ls := by
  induction ls with
  | nil => exact .nil
  | cons line ls ih =>
    obtain ⟨hline, hrest⟩ := List.forall_mem_cons.1 hls
    rw [List.flatMap_cons]
    refine .line hline hending ?_ (ih hrest)
    -- a single return is not followed by a feed, but by a line or a return
    intro hreturn
    rw [hreturn]
    cases ls with
    | nil => exact fun heq => nomatch heq
    | cons next ls =>
      rw [List.flatMap_cons]
      intro heq
      cases next with
      | nil => exact absurd (Option.some.inj heq) (by decide)
      | cons c next =>
        have hnext := hrest (c :: next) (List.mem_cons_self ..) c
          (List.mem_cons_self ..)
        exact hnext.1 (Option.some.inj heq)

end XorSpan.Text
