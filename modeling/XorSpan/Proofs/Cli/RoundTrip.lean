/-
What is printed as an answer is confirmed by a check. An answer printed to
a file is read back as it was found (`HashList.parse_printValues`), and
the values found, reduced or as computed, are as long as the target and
add up to it (`ValuesOf.addsUp`). So a command line that prints an answer
is followed by one that prints `OK` (`validate_of_solve`).
-/
import XorSpan.Proofs.Cli.Statuses
import XorSpan.Proofs.Cli.Words
import XorSpan.Proofs.Endings
import XorSpan.Proofs.HashLists

namespace XorSpan.Cli

variable {world world' : World} {target pool answer : String}
    {reduced : Bool} {t : Bytes}
  {values : List Bytes}

-- ================================================================ success

/-- No fault ends a command with status 0. So what ends with 0 has not
failed. -/
theorem failed_ne {label stdout stderr : String} {e : Fault} :
    (failed label stdout stderr e).ending ≠ .status 0 := by
  unfold failed
  cases e <;> intro h <;> cases h

/-- An answer that is printed was found. What stands in the output are
its values, one to a line. -/
theorem exists_answer_of_printAnswer {t : Job Answer}
    (h : (printAnswer world "" (fun _ => "") none t).ending = .status 0) :
    ∃ a, t.outcome = .ok a ∧
      (printAnswer world "" (fun _ => "") none t).stdout =
        printValues a.values := by
  unfold printAnswer at h ⊢
  unfold Job.outcome
  generalize t.start .never = ended at h ⊢
  obtain ⟨r, p⟩ := ended
  cases r with
  | error e => exact absurd h failed_ne
  | ok a =>
    refine ⟨a, rfl, ?_⟩
    show "" ++ printValues a.values ++ "" = printValues a.values
    rw [String.empty_append, String.append_empty]

/-- A command line that prints an answer has a target and a pool that
give one. -/
theorem exists_answer_of_solve
    (h : (run world (solveWords target pool reduced)).ending = .status 0) :
    ∃ t values a, Reads world.disk (.text (.value target))
      (.value pool) t values ∧
      (Answer.find (levelOf reduced) t values).outcome = .ok a ∧
      (run world (solveWords target pool reduced)).stdout =
        printValues a.values := by
  unfold run at h ⊢
  cases hparse : parse (solveWords target pool reduced) with
  | error stop =>
    rw [hparse] at h
    cases h
  | ok command =>
    rw [hparse] at h
    dsimp only at h ⊢
    rw [eq_of_parse_solveWords hparse] at h ⊢
    unfold Command.run at h ⊢
    have hreading := inputReading world.disk
      (.text (.value target)) (.value pool)
    dsimp only at h ⊢
    generalize readInputs world.disk (.text (.value target)) (.value pool) =
      r at h hreading ⊢
    cases hreading with
    | lacking => cases h
    | refused complaint =>
      dsimp only at h
      rw [complaint] at h
      cases h
    | read reads =>
      obtain ⟨a, ha, hstdout⟩ := exists_answer_of_printAnswer h
      exact ⟨_, _, a, reads, ha, hstdout⟩

-- ============================================================= both ways

/-- A target that is read from a text is what the text spells. Blanks
around it are trimmed first. -/
theorem Reads.spells {disk : Disk} {file : Argument String}
    (h : Reads disk (.text (.value target)) file t values) :
    Bytes.ofHex? (String.ofList (Text.trim target.toList)) = some t := by
  cases h with
  | inputs source =>
    cases source with
    | text spells => exact spells

/-- A hex text with blanks around it does not look like an option. A
dash is neither a blank nor a digit. -/
theorem not_startsWith_of_spells
    (h : Bytes.ofHex? (String.ofList (Text.trim target.toList)) = some t) :
    target.startsWith "-" = false := by
  rw [String.startsWith_string_eq_false_iff]
  intro hdash
  have hmem : '-' ∈ Text.trim target.toList :=
    Text.mem_trim (hdash.subset (List.mem_singleton_self '-')) (by decide)
  have hspells := (Bytes.ofHex?_eq_some_iff.1 h).2
  rw [String.toList_ofList] at hspells
  obtain ⟨d, hd⟩ := Bytes.digits_of_spells hspells '-' hmem
  have hnone : Bytes.hexValue? '-' = none := by decide
  rw [Bytes.hexValue?_of_isDigit hd] at hnone
  cases hnone

/-- A file that holds printed values is read back. The file has to be
within the limit for that, and no value without bytes. -/
theorem read_printValues {disk : Disk} {path : String}
    (hfile : disk.find (Path.normal path) =
      .file (printValues values).toUTF8.toList.length fun _ =>
        (printValues values).toUTF8.toList)
    (hsize : (printValues values).toUTF8.toList.length ≤
      Parameters.hashListLimit)
    (hvalues : ∀ v ∈ values, v.size ≠ 0) :
    HashList.read disk path = .ok values := by
  rw [HashList.read_of_find hfile hsize]
  exact HashList.parse_printValues hvalues

/-- An answer to a target of zero is empty. It is an answer all the
same, and adds up. -/
theorem stdout_of_zero
    (hsolve : (run world (solveWords target pool reduced)).ending = .status 0)
    (hspells : Bytes.ofHex? (String.ofList (Text.trim target.toList)) = some t)
    (hzero : t.isZero = true) :
    (run world (solveWords target pool reduced)).stdout = "" := by
  obtain ⟨u, _, _, hreads, hfound, hstdout⟩ := exists_answer_of_solve hsolve
  obtain ⟨_, hfinding, hvaluesOf⟩ := exists_valuesOf_of_find hfound
  cases hspells.symm.trans hreads.spells
  rw [hstdout, hvaluesOf.eq_nil (hfinding.computed_eq_nil hzero)]
  rfl

/-- What is printed is no longer than the target and the pool allow.
So whether it can be read back is a question of a bound on what was
given. -/
theorem length_stdout_le
    (hsolve : (run world (solveWords target pool reduced)).ending = .status 0)
    (hreads : Reads world.disk (.text (.value target)) (.value pool) t values) :
    (run world (solveWords target pool reduced)).stdout.toUTF8.toList.length ≤
      8 * t.size * values.length * (2 * t.size + 1) := by
  obtain ⟨_, _, a, hreads', hfound, hstdout⟩ := exists_answer_of_solve hsolve
  obtain ⟨rfl, rfl⟩ := hreads.unique hreads'
  obtain ⟨s, hfinding, hvaluesOf⟩ := exists_valuesOf_of_find hfound
  have hacc := hfinding.accepted
  have hsizes := (hvaluesOf.addsUp hfinding.sound hacc.sizes).1
  rw [hstdout, HashList.length_printValues hsizes]
  exact Nat.mul_le_mul_right
    _ (hvaluesOf.length_le hfinding.sound hacc.nonempty)

/-- If a command line prints an answer, and its output is written to a
file within the limit, the answer is confirmed; also where the target
is zero and the output is empty. -/
theorem validate_of_solve
    (hsolve : (run world (solveWords target pool reduced)).ending = .status 0)
    (hword : classify sourceSwitches answer = .ok (.value answer))
    (hfile : world'.disk.find (Path.normal answer) =
      .file
        (run world
          (solveWords target pool reduced)).stdout.toUTF8.toList.length
        fun _ =>
          (run world (solveWords target pool reduced)).stdout.toUTF8.toList)
    (hsize :
      (run world (solveWords target pool reduced)).stdout.toUTF8.toList.length ≤
        Parameters.hashListLimit) :
    run world' (validateWords target answer) = ⟨"OK\n", "", .status 0, none⟩ ∧
    ∀ t, Bytes.ofHex? (String.ofList (Text.trim target.toList)) = some t →
    t.isZero = true →
      (run world (solveWords target pool reduced)).stdout = "" := by
  obtain ⟨t, values, a, hreads, hfound, hstdout⟩ :=
    exists_answer_of_solve hsolve
  obtain ⟨s, hfinding, hvaluesOf⟩ := exists_valuesOf_of_find hfound
  have hacc : Solution.Accepted t values := hfinding.accepted
  have hadds := hvaluesOf.addsUp hfinding.sound hacc.sizes
  have hlong : ∀ v ∈ a.values, v.size ≠ 0 := by
    intro v hv
    rw [hadds.1 v hv]
    exact hacc.nonempty
  refine ⟨?_, fun u hu hzero => stdout_of_zero hsolve hu hzero⟩
  rw [hstdout] at hfile hsize
  have hback :
      Reads world'.disk (.text (.value target)) (.value answer) t a.values :=
    .inputs (.text hreads.spells) (read_printValues hfile hsize hlong)
  rw [run_of_parse (parse_validateWords
    (not_startsWith_of_spells hreads.spells) hword)]
  unfold Command.run
  dsimp only
  rw [hback.readInputs_eq]
  dsimp only
  rw [checkSum_eq_ok_iff.2 hadds]

/-- Over the unit values of one byte and `3`, with the answer where
the pool was. -/
theorem validate_of_solve_three :
    run (.holding (run (.holding (printValues (#[3] :: Bytes.units 1)))
        (solveWords "03" "f" true)).stdout) (validateWords "03" "f") =
      ⟨"OK\n", "", .status 0, none⟩ := by
  have hacc : Solution.Accepted #[3] (#[3] :: Bytes.units 1) :=
    Solution.accepted_cons_units rfl (by decide)
  have hspans : Bytes.Spans 1 (#[3] :: Bytes.units 1) :=
    Bytes.spans_of_units hacc.sizes fun _ hu => List.mem_cons_of_mem _ hu
  have hlength : (#[3] :: Bytes.units 1).length = 9 := by
    unfold Bytes.units
    simp
  have hreads : Reads (World.holding (printValues (#[3] :: Bytes.units 1))).disk
      (.text (.value "03")) (.value "f") #[3] (#[3] :: Bytes.units 1) := by
    refine .inputs (.text (by decide +kernel))
      (read_printValues (Disk.find_uniform _ Path.problem?_normal_f) ?_ ?_)
    · rw [HashList.length_printValues hacc.sizes, hlength]
      decide
    · intro v hv
      rw [hacc.sizes v hv]
      exact hacc.nonempty
  have hdash : "f".startsWith "-" = false := by decide +kernel
  have hparse : parse (solveWords "03" "f" true) = _ :=
    parse_solveWords (by decide +kernel) hdash true
  have hsolve := (acted_of_reads hparse (.solve _ _ _ _) (Disk.steady_uniform _)
    hreads).ending_of_reached rfl hacc (.inr hspans)
  refine (validate_of_solve hsolve (classify_of_plain hdash)
    (Disk.find_uniform _ Path.problem?_normal_f) ?_).1
  have hle := length_stdout_le hsolve hreads
  rw [hlength] at hle
  exact Nat.le_trans hle (by decide)

end XorSpan.Cli
