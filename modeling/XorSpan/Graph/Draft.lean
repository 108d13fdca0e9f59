/-
Drafts: solutions put together by hand from data of any kind, and the
graphs that come of them.

The values of a draft are looked up to be attached, which takes data that
do not change. Those that are not bytes go under aliases. When one comes
to be explained it has to be found not to be zero, which most strangers
cannot be asked; one that can may even have a record.

The operands of a record are looked up too, so a record of which one may
still change explains nothing. A draft made of bytes alone is expanded as
the solution that it is (`graph_of_bytes`).
-/
import XorSpan.Graph.Mixed

namespace XorSpan

structure Draft where
  /-- The draft with aliases in the place of strangers. -/
  solution : Solution
  roll : Roll
  /-- The values found, or why they cannot be looked up. -/
  computed : List (Except KindError Bytes)
  /-- The keys of records that cannot be attached, with the reason. -/
  loose : Std.HashMap Bytes KindError

namespace Draft

/-- A record under its key, which nothing leads to if it is a stranger
that was never met. -/
structure Entry where
  key : Option Bytes
  record : Record
  /-- Why the record's operands cannot be attached. -/
  loose : Option KindError

/-- Notes whether the record now stored under a key can be attached. -/
def noteLoose (loose : Std.HashMap Bytes KindError) (e : Entry) :
    Std.HashMap Bytes KindError :=
  match e.key, e.loose with
  | some key, some error => loose.insert key error
  | some key, none => loose.erase key
  | none, _ => loose

/-- The draft with these entries, of which a later one replaces an
earlier one under its key. -/
def ofEntries (target : Bytes) (pool : List Bytes) (roll : Roll)
    (computed : List (Except KindError Bytes))
    (entries : List Entry) : Draft where
  solution := {
    target, pool
    computed := computed.filterMap Except.toOption
    records := Table.ofList (entries.filterMap fun e =>
      e.key.map (·, e.record)) }
  roll
  computed
  loose := entries.foldl noteLoose ∅

-- ============================================================= expansion

def seed (e : Expansion) (value : Except KindError Bytes) :
    Except Fault Expansion :=
  match value with
  | .ok value => .ok (e.attach 0 value)
  | .error error => .error (.unreadable (.kind error))

/-- What is in the way of explaining the next pending node. -/
def obstacle? (d : Draft) (base : Std.HashSet Bytes) (e : Expansion) :
    Option Fault :=
  e.pending.head?.bind fun i =>
    let value := e.graph.valueAt i
    let loose := d.loose[value]?.map fun error => Fault.unreadable (.kind error)
    match d.roll.stranger? value with
    | some stranger =>
        match stranger.isZero with
        | .error error => some (.unreadable (.kind error))
        | .ok true => some (.defect .walk .zeroValue)
        | .ok false => loose
    | none => if value.isZero || base.contains value then none else loose

/-- Explains the next pending node unless something is in the way. -/
def step (d : Draft) (base : Std.HashSet Bytes) (e : Expansion) :
    Stride Expansion :=
  match d.obstacle? base e with
  | some fault => .fail fault
  | none => e.step base

theorem step_eq_of_move {d : Draft} {base : Std.HashSet Bytes}
    {e e' : Expansion} {lines : List String}
    (h : d.step base e = .move e' lines) :
    e.step base = .move e' lines := by
  unfold step at h
  split at h
  · cases h
  · exact h

def walk (d : Draft) (base : Std.HashSet Bytes) : Walk Expansion where
  stage := .walk
  step := d.step base
  rank e := (0, e.rank)
  descends h := Prod.Lex.right _ (Expansion.rank_step_lt (step_eq_of_move h))

def expand (d : Draft) : Job Graph := do
  let seeded ← Job.visit .seed seed (Expansion.initial d.solution) d.computed
  (← (d.walk d.solution.base).run seeded).close

def graph (d : Draft) : Job MixedGraph := do
  return ⟨← d.expand.mapFault d.roll.disclose, d.roll, .bytes d.solution.target⟩

-- =========================================================== bytes alone

theorem step_of_bytes (d : Draft) (base : Std.HashSet Bytes)
    (hroll : d.roll.strangers = #[])
    (hloose : d.loose = ∅) : d.step base = Expansion.step base := by
  funext e
  unfold step obstacle?
  cases e.pending.head? <;> simp [Roll.stranger?, hroll, hloose]

theorem walk_of_bytes (d : Draft) (base : Std.HashSet Bytes)
    (hroll : d.roll.strangers = #[])
    (hloose : d.loose = ∅) : d.walk base = Expansion.walk base := by
  unfold walk Expansion.walk
  congr 1
  exact step_of_bytes d base hroll hloose

theorem visit_seed (values : List Bytes) (e : Expansion) :
    Job.visit .seed seed e (values.map .ok) =
      Job.visit .seed
        (fun (e : Expansion) value => .ok (e.attach 0 value)) e values := by
  induction values generalizing e with
  | nil => rfl
  | cons v vs ih =>
    simp only [List.map_cons, Job.visit, seed]
    congr 1
    funext _
    exact ih _

/-- A draft made of bytes alone has the graph of the solution it is. -/
theorem graph_of_bytes (d : Draft) (hroll : d.roll.strangers = #[])
    (hcomputed : d.computed = d.solution.computed.map .ok)
    (hloose : d.loose = ∅) :
    d.graph = do
      return ⟨← d.solution.graph, d.roll, .bytes d.solution.target⟩ := by
  have hfault : d.roll.disclose = id := funext (d.roll.disclose_eq_self hroll)
  unfold graph expand Solution.graph
  rw [hcomputed, visit_seed, walk_of_bytes d _ hroll hloose, hfault,
    Job.mapFault_id]

end Draft

end XorSpan
