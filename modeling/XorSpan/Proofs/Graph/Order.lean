/-
What the depth-first search comes to. It lists the nodes below the root
with every parent before its children, or it comes upon a node that is
below itself (`scripted_order`).

The invariant is `Sound`: the marks say what is listed and what is on the
path, and the path is a `Trail`, each of its nodes a child of the one
before, with all children passed over already listed. So a node is left
only when all its children are in the list, and a child found on the
path is below the end of the path as well as above it.
-/
import XorSpan.Graph.Order
import XorSpan.Proofs.Graph.Paths
import XorSpan.Proofs.Jobs

namespace XorSpan

open XorSpan.Graph

namespace Search

variable {g : Graph} {s t : Search} {listed : List Nat} {above : Option Nat}
  {path : List (Nat × List Nat)} {i j : Nat}

-- =============================================================== trails

/-- A path of the search, its end first, down to the root. The node
above a frame, if there is one, is the child that was looked at last;
the other children passed over are listed. -/
inductive Trail (g : Graph) (listed : List Nat) :
    Option Nat → List (Nat × List Nat) → Prop where
  | nil {above : Option Nat}
      (h : ∀ c, above = some c → c = 0) : Trail g listed above []
  | frame {above : Option Nat} {i : Nat} {ahead : List Nat}
      {path : List (Nat × List Nat)}
      (passed : List Nat) (hsplit : (g.childrenAt i).toList = passed ++ ahead)
      (hpassed : ∀ c ∈ passed, c ∈ listed ∨ above = some c)
      (habove : ∀ c, above = some c → c ∈ g.childrenAt i)
      (htail : Trail g listed (some i) path) :
      Trail g listed above ((i, ahead) :: path)

/-- A trail does not mind more being listed. So a node that is
finished elsewhere does not break it. -/
theorem Trail.mono {more : List Nat} (h : Trail g listed above path)
    (hmore : ∀ c ∈ listed, c ∈ more) : Trail g more above path := by
  induction h with
  | nil h => exact .nil h
  | frame passed hsplit hpassed habove _ ih =>
    exact .frame passed hsplit
      (fun c hc => (hpassed c hc).imp_left (hmore c)) habove ih

/-- When the end of a path is listed, the path without it is a trail.
Its parent has one child less to look at. -/
theorem Trail.leave (h : Trail g listed (some i) path) :
    Trail g (i :: listed) none path := by
  cases h with
  | nil => exact .nil fun c hc => nomatch hc
  | frame passed hsplit hpassed _ htail =>
    refine .frame passed hsplit (fun c hc => .inl ?_) (fun c hc => nomatch hc)
      (htail.mono fun c hc => List.mem_cons_of_mem _ hc)
    rcases hpassed c hc with hlisted | habove
    · exact List.mem_cons_of_mem _ hlisted
    · rw [Option.some.inj habove]
      exact List.mem_cons_self ..

/-- The end of a path is below all of it. So a child that is on the
path is below itself. -/
theorem Trail.below_of_mem (h : Trail g listed (some i) path)
    (hj : j ∈ path.map Prod.fst) :
    Relation.TransGen g.Child j i := by
  induction path generalizing i with
  | nil => cases hj
  | cons frame path ih =>
    cases h with
    | @frame _ k ahead _ passed hsplit hpassed habove htail =>
      have hchild : g.Child k i := habove i rfl
      rcases List.mem_cons.1 hj with rfl | hj
      · exact .single hchild
      · exact (ih htail hj).tail hchild

theorem Trail.reached (h : Trail g listed (some i) path) :
    Relation.ReflTransGen g.Child 0 i := by
  induction path generalizing i with
  | nil =>
    cases h with
    | nil h =>
      rw [h i rfl]
  | cons frame path ih =>
    cases h with
    | frame passed hsplit hpassed habove htail =>
      exact (ih htail).tail (habove i rfl)

-- ============================================================ the search

/-- Between two steps: what is finished is listed, in order, and what
is on the path is marked so. -/
structure Sound (g : Graph) (s : Search) : Prop where
  size : s.marks.size = g.size
  finished : ∀ i, s.marks[i]? = some .finished ↔ i ∈ s.listed
  onPath : ∀ i, s.marks[i]? = some .onPath ↔ i ∈ s.path.map Prod.fst
  nodup : (s.path.map Prod.fst).Nodup
  trail : Trail g s.listed none s.path
  order : ParentsFirst g s.listed
  reached : ∀ i ∈ s.listed, Relation.ReflTransGen g.Child 0 i
  root : 0 ∈ s.listed ∨ 0 ∈ s.path.map Prod.fst

/-- The root is on the path, and nothing has been listed. -/
theorem sound_initial (g : Graph) : Sound g (initial g) := by
  have hpos : 0 < g.size := g.nonempty
  have hmark : ∀ i, (initial g).marks[i]? =
      if i = 0 then some .onPath
      else if i < g.size then some .unseen else none := by
    intro i
    unfold initial
    rw [Array.getElem?_setIfInBounds]
    by_cases hi : i = 0
    · subst hi
      simp [hpos]
    · rw [if_neg (Ne.symm hi), if_neg hi, Array.getElem?_replicate]
  refine ⟨?_, ?_, ?_, ?_, ?_, .nil, ?_, ?_⟩
  · unfold initial
    simp
  · intro i
    rw [hmark]
    constructor
    · intro h
      split at h
      · cases h
      · split at h <;> cases h
    · intro h
      cases h
  · intro i
    rw [hmark]
    constructor
    · intro h
      split at h
      · next hi =>
        subst hi
        exact List.mem_cons_self ..
      · split at h <;> cases h
    · intro h
      rw [List.mem_singleton.1 h]
      rfl
  · exact List.nodup_singleton 0
  · exact .frame [] rfl (fun c hc => nomatch hc) (fun c hc => nomatch hc)
      (.nil fun c hc => (Option.some.inj hc).symm)
  · intro i hi
    cases hi
  · exact .inr (List.mem_cons_self ..)

/-- A mark that was read is the mark of a node, if the number is in
range; elsewhere a node counts as finished. -/
theorem getElem?_of_markAt {m : Mark} (hi : i < s.marks.size)
    (hm : s.markAt i = m) :
    s.marks[i]? = some m := by
  unfold markAt at hm
  rw [Array.getElem?_eq_getElem hi] at hm ⊢
  exact congrArg some hm

theorem lt_of_getElem?_eq_some {marks : Array Mark} {m : Mark}
    (h : marks[i]? = some m) :
    i < marks.size :=
  (Array.getElem?_eq_some_iff.1 h).1

theorem getElem?_mark {marks : Array Mark} (m : Mark)
    (hi : i < marks.size) (k : Nat) :
    (marks.setIfInBounds i m)[k]? = if k = i then some m else marks[k]? := by
  rw [Array.getElem?_setIfInBounds]
  by_cases hk : i = k
  · subst hk
    rw [if_pos rfl, if_pos hi, if_pos rfl]
  · rw [if_neg hk, if_neg (Ne.symm hk)]

/-- The end of the path is listed once all its children are. It goes
in front of what is listed, so parents come first. -/
theorem Sound.leave (h : Sound g s) (hpath : s.path = (i, []) :: path) :
    Sound g ⟨s.marks.setIfInBounds i .finished, path, i :: s.listed⟩ := by
  have hnodup := h.nodup
  have htrail := h.trail
  have hroot := h.root
  have honPath := h.onPath
  rw [hpath] at hnodup htrail hroot honPath
  obtain ⟨hi, hnodup⟩ := List.nodup_cons.1 hnodup
  have hmark : s.marks[i]? = some .onPath :=
    (honPath i).2 (List.mem_cons_self ..)
  have hlt : i < s.marks.size := lt_of_getElem?_eq_some hmark
  have hnew : i ∉ s.listed := by
    intro hlisted
    rw [(h.finished i).2 hlisted] at hmark
    cases hmark
  cases htrail with
  | frame passed hsplit hpassed _ htail =>
    have hchildren : ∀ c ∈ g.childrenAt i, c ∈ s.listed := by
      intro c hc
      rw [← Array.mem_toList_iff, hsplit, List.append_nil] at hc
      exact (hpassed c hc).resolve_right fun habove => nomatch habove
    refine ⟨?_, ?_, ?_, hnodup, htail.leave,
      .cons hnew hchildren h.order, ?_, ?_⟩
    · rw [Array.size_setIfInBounds]
      exact h.size
    · intro k
      rw [getElem?_mark _ hlt, List.mem_cons]
      by_cases hk : k = i
      · simp [hk]
      · rw [if_neg hk, h.finished]
        simp [hk]
    · intro k
      rw [getElem?_mark _ hlt]
      by_cases hk : k = i
      · subst hk
        rw [if_pos rfl]
        constructor
        · intro habsurd
          cases habsurd
        · intro hmem
          exact absurd hmem hi
      · rw [if_neg hk, honPath, List.map_cons, List.mem_cons]
        simp [hk]
    · intro k hk
      rcases List.mem_cons.1 hk with rfl | hk
      · exact htail.reached
      · exact h.reached k hk
    · rcases hroot with hroot | hroot
      · exact .inl (List.mem_cons_of_mem _ hroot)
      · rcases List.mem_cons.1 hroot with rfl | hroot
        · exact .inl (List.mem_cons_self ..)
        · exact .inr hroot

/-- A child that is listed is passed over. It stands behind its parent
in the list in any case. -/
theorem Sound.pass {child : Nat} {ahead : List Nat} (h : Sound g s)
    (hpath : s.path = (i, child :: ahead) :: path) (hchild : child ∈ s.listed) :
    Sound g { s with path := (i, ahead) :: path } := by
  have htrail := h.trail
  have hnodup := h.nodup
  have hroot := h.root
  have honPath := h.onPath
  rw [hpath] at htrail hnodup hroot honPath
  cases htrail with
  | frame passed hsplit hpassed habove htail =>
    refine ⟨h.size, h.finished, honPath, hnodup, ?_, h.order, h.reached, hroot⟩
    refine .frame (passed ++ [child])
      (by rw [hsplit, List.append_assoc]; rfl) ?_ habove htail
    intro c hc
    rcases List.mem_append.1 hc with hc | hc
    · exact hpassed c hc
    · rw [List.mem_singleton.1 hc]
      exact .inl hchild

/-- A child not seen before becomes the end of the path. It is marked,
so that it is known when it is met again before it is listed. -/
theorem Sound.enter {child : Nat} {ahead : List Nat} (h : Sound g s)
    (hpath : s.path = (i, child :: ahead) :: path)
    (hchild : s.marks[child]? = some .unseen) :
    Sound g { s with
      marks := s.marks.setIfInBounds child .onPath
      path := (child, (g.childrenAt child).toList) :: (i, ahead) :: path } := by
  have htrail := h.trail
  have hnodup := h.nodup
  have hroot := h.root
  have honPath := h.onPath
  rw [hpath] at htrail hnodup hroot honPath
  have hlt : child < s.marks.size := lt_of_getElem?_eq_some hchild
  have hunlisted : child ∉ s.listed := by
    intro hlisted
    rw [(h.finished child).2 hlisted] at hchild
    cases hchild
  have haway : child ∉ i :: path.map Prod.fst := by
    intro hmem
    rw [(honPath child).2 hmem] at hchild
    cases hchild
  cases htrail with
  | frame passed hsplit hpassed habove htail =>
    have hmem : child ∈ g.childrenAt i := by
      rw [← Array.mem_toList_iff, hsplit]
      exact List.mem_append_right _ (List.mem_cons_self ..)
    refine ⟨?_, ?_, ?_, List.nodup_cons.2 ⟨haway, hnodup⟩, ?_,
      h.order, h.reached, ?_⟩
    · rw [Array.size_setIfInBounds]
      exact h.size
    · intro k
      rw [getElem?_mark _ hlt]
      by_cases hk : k = child
      · subst hk
        simp [hunlisted]
      · rw [if_neg hk]
        exact h.finished k
    · intro k
      rw [getElem?_mark _ hlt]
      by_cases hk : k = child
      · simp [hk]
      · rw [if_neg hk, honPath]
        simp [hk]
    · refine .frame [] rfl (fun c hc => nomatch hc) (fun c hc => nomatch hc) ?_
      refine .frame (passed ++ [child])
        (by rw [hsplit, List.append_assoc]; rfl) ?_ ?_ htail
      · intro c hc
        rcases List.mem_append.1 hc with hc | hc
        · exact .inl ((hpassed c hc).resolve_right fun hnone => nomatch hnone)
        · exact .inr (by rw [List.mem_singleton.1 hc])
      · intro c hc
        rw [← Option.some.inj hc]
        exact hmem
    · exact hroot.imp_right fun hroot => List.mem_cons_of_mem _ hroot

theorem Sound.step (hrange : ∀ i, ∀ c ∈ g.childrenAt i, c < g.size)
    {lines : List String}
    (h : Sound g s) (hstep : s.step g = .move t lines) : Sound g t := by
  unfold Search.step at hstep
  split at hstep
  · cases hstep
  · next i path hpath =>
    cases hstep
    exact h.leave hpath
  · next i child ahead path hpath =>
    have htrail := h.trail
    rw [hpath] at htrail
    have hlt : child < s.marks.size := by
      cases htrail with
      | frame passed hsplit =>
        rw [h.size]
        refine hrange i child ?_
        rw [← Array.mem_toList_iff, hsplit]
        exact List.mem_append_right _ (List.mem_cons_self ..)
    split at hstep
    · cases hstep
    · next hmark =>
      cases hstep
      exact h.pass hpath ((h.finished child).1 (getElem?_of_markAt hlt hmark))
    · next hmark =>
      cases hstep
      exact h.enter hpath (getElem?_of_markAt hlt hmark)

/-- The search stops at a node that is below itself, and that the root
leads to. -/
theorem Sound.cyclic_of_fail {fault : Fault} (h : Sound g s)
    (hstep : s.step g = .fail fault) :
    ∃ i, Relation.TransGen g.Child i i ∧ Relation.ReflTransGen g.Child 0 i ∧
      fault = .defect .order (.cycle (g.valueAt i)) := by
  unfold Search.step at hstep
  split at hstep
  · cases hstep
  · cases hstep
  · next i child ahead path hpath =>
    split at hstep
    · next hmark =>
      cases hstep
      have htrail := h.trail
      have honPath := h.onPath
      rw [hpath] at htrail honPath
      have hmark' : s.marks[child]? = some .onPath := by
        unfold markAt at hmark
        cases hget : s.marks[child]? with
        | none => rw [hget] at hmark; cases hmark
        | some m => rw [hget] at hmark; exact congrArg some hmark
      cases htrail with
      | frame passed hsplit hpassed habove htail =>
        have hchild : g.Child i child := by
          unfold Child
          rw [← Array.mem_toList_iff, hsplit]
          exact List.mem_append_right _ (List.mem_cons_self ..)
        refine ⟨child, ?_, htail.reached.tail hchild, rfl⟩
        rcases List.mem_cons.1 ((honPath child).1 hmark') with heq | htail'
        · dsimp only at heq
          subst heq
          exact .single hchild
        · exact (htail.below_of_mem htail').tail hchild
    · cases hstep
    · cases hstep

end Search

-- ================================================================ outcome

namespace Graph

variable {g : Graph}

/-- Either the nodes below the root can be listed, every parent before
its children, or the search names one of them that is below itself. -/
inductive Ordering (g : Graph) : Except Fault (List Nat) → Prop where
  | listed {order : List Nat} (parentsFirst : ParentsFirst g order)
      (mem : ∀ i, i ∈ order ↔ Relation.ReflTransGen g.Child 0 i) :
      Ordering g (.ok order)
  | cyclic {i : Nat} (below : Relation.TransGen g.Child i i)
      (reached : Relation.ReflTransGen g.Child 0 i) :
      Ordering g (.error (.defect .order (.cycle (g.valueAt i))))

/-- Ordering a graph comes to a parents-first list of what the root
leads to, or to a node that is below itself. -/
theorem scripted_order (hrange : ∀ i, ∀ c ∈ g.childrenAt i, c < g.size) :
    ∃ r, Job.Scripted g.order r ∧ Ordering g r := by
  obtain ⟨r, hends⟩ := (Search.walk g).exists_ends (Search.initial g)
  have hkeeps : ∀ {s t : Search} {lines : List String}, Search.Sound g s →
      (Search.walk g).step s = .move t lines → Search.Sound g t :=
    fun h hstep => h.step hrange hstep
  unfold order
  cases r with
  | error fault =>
    obtain ⟨s, hs, hfail⟩ := hends.keeps_fault hkeeps (Search.sound_initial g)
    obtain ⟨i, hbelow, hreached, rfl⟩ := hs.cyclic_of_fail hfail
    exact ⟨_, hends.scripted_run.bind_error, .cyclic hbelow hreached⟩
  | ok t =>
    obtain ⟨s, hs, hrest⟩ := hends.keeps hkeeps (Search.sound_initial g)
    have hfinal : s.path = [] ∧ t = s := by
      have hstep : s.step g = .rest t := hrest
      unfold Search.step at hstep
      split at hstep
      · next hpath =>
        cases hstep
        exact ⟨hpath, rfl⟩
      · cases hstep
      · split at hstep <;> cases hstep
    obtain ⟨hpath, rfl⟩ := hfinal
    refine ⟨_, hends.scripted_run.bind (Job.scripted_pure _),
      .listed hs.order ?_⟩
    intro i
    have hroot : 0 ∈ t.listed :=
      hs.root.resolve_right (by rw [hpath]; exact List.not_mem_nil)
    exact ⟨hs.reached i, hs.order.mem_of_reached hroot⟩

end Graph

end XorSpan
