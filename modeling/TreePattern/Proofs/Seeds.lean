import TreePattern.Proofs.Visit
/-!
The value with which a walk starts. Steps that set a value forget the one before, and only look-ups
and cleaners read it. So where a value is set before each of these, walks of the same node from two
starting values take the same branches, and their answers differ at most as the starting values do.
-/
namespace TreePattern

variable {tree : Tree}

/-- The step gives the walk a value that does not depend on the one before. -/
def Step.setsValue : Step → Bool
  | .path (.words _) | .path .full | .path (.fixed _) => true
  | _ => false

/-- What the step does depends on the value. -/
def Step.readsValue : Step → Bool
  | .lookup _ _ _ | .cleanVersion _ => true
  | _ => false

/-- Every step that reads the value has a step before it that sets one. -/
def Guarded (steps : List Step) : Prop :=
  ∀ first step rest, steps = first ++ step :: rest → step.readsValue →
    ∃ setter ∈ first, setter.setsValue

/-- A value is set before the first null test, or anywhere if there is none. -/
def Settled (steps : List Step) : Prop :=
  ∃ first setter rest, steps = first ++ setter :: rest ∧ setter.setsValue ∧
    ∀ step ∈ first, step ≠ .isNull

/-- Answers to two values that differ in these values at most. -/
inductive Alike (u v : String) : Option String → Option String → Prop where
  | none : Alike u v none none
  | same (value : String) : Alike u v (some value) (some value)
  | seeds : Alike u v (some u) (some v)

/-- A visit of a step: the node at which the walk enters it, and the one from which the steps behind
it succeed, if they do. -/
structure Stop (tree : Tree) where
  position : Nat
  node : Fin tree.size
  winner : Option (Fin tree.size)
  deriving DecidableEq, Repr

/-- The visits of a walk in their order. -/
def stops (tree : Tree) : Nat → List Step → State tree → List (Stop tree)
  | _, [], _ => []
  | position, step :: rest, s =>
    let winner := (step.successors s).find? fun t => (answer tree rest t).isSome
    ⟨position, s.point.node, winner.map fun t => t.point.node⟩ ::
      (tried (answer tree rest) (step.successors s)).flatMap (stops tree (position + 1) rest)

theorem Step.readsValue_of_sets {step : Step} (sets : step.setsValue) :
    step.readsValue = false := by
  cases step <;> first | rfl | cases sets

theorem guarded_nil : Guarded [] := by
  intro first step rest whole
  simp at whole

theorem guarded_cons {step : Step} {rest : List Step} : Guarded (step :: rest) ↔
    step.setsValue ∨ step.setsValue = false ∧ step.readsValue = false ∧ Guarded rest := by
  constructor
  · intro guarded
    by_cases sets : step.setsValue
    · exact .inl sets
    · refine .inr ⟨by simpa using sets, ?_, ?_⟩
      · -- Nothing comes before the first step, so it reads nothing.
        cases reads : step.readsValue with
        | false => rfl
        | true =>
          obtain ⟨setter, mem, -⟩ := guarded [] step rest rfl reads
          cases mem
      · intro first reader behind whole reads
        obtain ⟨setter, mem, setter_sets⟩ :=
          guarded (step :: first) reader behind (by rw [whole, List.cons_append]) reads
        obtain rfl | mem := List.mem_cons.1 mem
        · exact absurd setter_sets sets
        · exact ⟨setter, mem, setter_sets⟩
  · intro head first reader behind whole reads
    cases first with
    | nil =>
      obtain ⟨rfl, rfl⟩ := List.cons_eq_cons.1 whole
      obtain sets | ⟨-, ignores, -⟩ := head
      · exact absurd reads (by simp [Step.readsValue_of_sets sets])
      · exact absurd reads (by simp [ignores])
    | cons here first =>
      obtain ⟨rfl, rfl⟩ := List.cons_eq_cons.1 whole
      obtain sets | ⟨-, -, guarded⟩ := head
      · exact ⟨step, List.mem_cons_self .., sets⟩
      · obtain ⟨setter, mem, sets⟩ := guarded first reader behind rfl reads
        exact ⟨setter, List.mem_cons_of_mem step mem, sets⟩

instance decidableGuarded : (steps : List Step) → Decidable (Guarded steps)
  | [] => isTrue guarded_nil
  | _ :: rest =>
    have := decidableGuarded rest
    decidable_of_iff' _ guarded_cons

theorem guarded_of_not_reads {steps : List Step}
    (ignored : ∀ step ∈ steps, step.readsValue = false) : Guarded steps := by
  rintro first step rest rfl reads
  rw [ignored step (by simp)] at reads
  cases reads

namespace Alike

variable {u v : String}

theorem isSome_eq {r r' : Option String} (alike : Alike u v r r') : r.isSome = r'.isSome := by
  cases alike <;> rfl

theorem refl (r : Option String) : Alike u v r r := by
  cases r with
  | none => exact .none
  | some value => exact .same value

theorem findSome? {α : Type} {f g : α → Option String} (alike : ∀ x, Alike u v (f x) (g x))
    (xs : List α) : Alike u v (xs.findSome? f) (xs.findSome? g) := by
  induction xs with
  | nil => exact .none
  | cons x xs ih =>
    have here := alike x
    rw [List.findSome?_cons, List.findSome?_cons]
    cases hf : f x <;> cases hg : g x <;> rw [hf, hg] at here
    · exact ih
    · cases here
    · cases here
    · exact here

/-- A null test turns answers around that are alike. -/
theorem conclude {r r' : Option String} (alike : Alike u v r r') (step : Step) :
    Alike u v (step.conclude u r) (step.conclude v r') := by
  by_cases nullTest : step = .isNull
  · subst nullTest
    cases alike with
    | none => exact .seeds
    | same value => exact .none
    | seeds => exact .none
  · rw [Step.conclude_of_ne nullTest, Step.conclude_of_ne nullTest]
    exact alike

end Alike

/-- The same state with another value. -/
def State.withValue (s : State tree) (value : String) : State tree :=
  ⟨⟨s.point.node, value⟩, s.defaults⟩

namespace Step

variable {step : Step}

/-- A step that sets a value leads to the same states from any value. -/
theorem successors_withValue_of_sets (sets : step.setsValue) (s : State tree) (value : String) :
    step.successors (s.withValue value) = step.successors s := by
  cases step with
  | path op =>
    cases op with
    | words range => rfl
    | full => rfl
    | fixed text => rfl
    | down range name => cases sets
    | move direction => cases sets
    | test comparison literal => cases sets
  | isNull => cases sets
  | cleanVersion policy => cases sets
  | pushDefault text => cases sets
  | lookup name table withDefault => cases sets

/-- Any other step that does not read the value hands it on. -/
theorem successors_withValue (keeps : step.setsValue = false) (ignores : step.readsValue = false)
    (s : State tree) (value : String) :
    step.successors (s.withValue value) = (step.successors s).map (·.withValue value) := by
  cases step with
  | path op =>
    cases op with
    | words range => cases keeps
    | full => cases keeps
    | fixed text => cases keeps
    | down range name => simp [successors, PathOp.outcomes, State.withValue]
    | move direction => simp [successors, PathOp.outcomes, State.withValue]
    | test comparison literal =>
      by_cases holds : comparison.holds literal (tree.text s.point.node) <;>
        simp [successors, PathOp.outcomes, State.withValue, holds]
  | isNull => rfl
  | cleanVersion policy => cases ignores
  | pushDefault text => rfl
  | lookup name table withDefault => cases ignores

theorem ne_isNull_of_sets (sets : step.setsValue) : step ≠ .isNull := by
  rintro rfl
  cases sets

end Step

section Answers

variable {step : Step} {rest : List Step}

theorem answer_withValue_of_sets (sets : step.setsValue) (s : State tree) (value : String) :
    answer tree (step :: rest) (s.withValue value) = answer tree (step :: rest) s := by
  rw [answer, answer, Step.successors_withValue_of_sets sets,
    Step.conclude_of_ne (Step.ne_isNull_of_sets sets),
    Step.conclude_of_ne (Step.ne_isNull_of_sets sets)]

theorem answer_withValue (keeps : step.setsValue = false) (ignores : step.readsValue = false)
    (s : State tree) (value : String) :
    answer tree (step :: rest) (s.withValue value) = step.conclude value
      ((step.successors s).findSome? fun t => answer tree rest (t.withValue value)) := by
  rw [answer, Step.successors_withValue keeps ignores, List.findSome?_map]
  rfl

end Answers

theorem alike_answer {steps : List Step} (guarded : Guarded steps) (s : State tree) (u v : String) :
    Alike u v (answer tree steps (s.withValue u)) (answer tree steps (s.withValue v)) := by
  induction steps generalizing s with
  | nil => exact .seeds
  | cons step rest ih =>
    obtain sets | ⟨keeps, ignores, behind⟩ := guarded_cons.1 guarded
    · rw [answer_withValue_of_sets sets, answer_withValue_of_sets sets]
      exact .refl _
    · -- Both walks try the same states, each with its own value.
      rw [answer_withValue keeps ignores, answer_withValue keeps ignores]
      exact (Alike.findSome? (fun t => ih behind t) _).conclude step

theorem answer_eq_of_settled {steps : List Step} (guarded : Guarded steps) (settled : Settled steps)
    (s : State tree) (u v : String) :
    answer tree steps (s.withValue u) = answer tree steps (s.withValue v) := by
  induction steps generalizing s with
  | nil =>
    obtain ⟨first, setter, rest, whole, -⟩ := settled
    simp at whole
  | cons step rest ih =>
    obtain sets | ⟨keeps, ignores, behind⟩ := guarded_cons.1 guarded
    · rw [answer_withValue_of_sets sets, answer_withValue_of_sets sets]
    · obtain ⟨first, setter, last, whole, sets, plain⟩ := settled
      cases first with
      | nil =>
        obtain ⟨rfl, rfl⟩ := List.cons_eq_cons.1 whole
        rw [keeps] at sets
        cases sets
      | cons here first =>
        obtain ⟨rfl, rfl⟩ := List.cons_eq_cons.1 whole
        have later := ih behind ⟨first, setter, last, rfl, sets, fun other mem =>
          plain other (List.mem_cons_of_mem step mem)⟩
        have passes := Step.conclude_of_ne (plain step (List.mem_cons_self ..))
        rw [answer_withValue keeps ignores, answer_withValue keeps ignores, passes, passes]
        simp only [later]

theorem stops_eq {steps : List Step} (guarded : Guarded steps) (position : Nat) (s : State tree)
    (u v : String) :
    stops tree position steps (s.withValue u) = stops tree position steps (s.withValue v) := by
  induction steps generalizing position s with
  | nil => rfl
  | cons step rest ih =>
    obtain sets | ⟨keeps, ignores, behind⟩ := guarded_cons.1 guarded
    · rw [stops, stops, Step.successors_withValue_of_sets sets,
        Step.successors_withValue_of_sets sets]
      rfl
    · have same (t : State tree) : (answer tree rest (t.withValue u)).isSome =
          (answer tree rest (t.withValue v)).isSome := (alike_answer behind t u v).isSome_eq
      have later (t : State tree) : stops tree (position + 1) rest (t.withValue u) =
          stops tree (position + 1) rest (t.withValue v) := ih behind (position + 1) t
      simp only [stops, Step.successors_withValue keeps ignores, List.find?_map, tried_map,
        List.flatMap_map, later, Option.map_map, Function.comp_def, same, tried_congr same]
      rfl

namespace Plan

/-- A walk stops at the steps that it enters. -/
theorem mem_stops_iff {plan : Plan} {index : Nat} {s : State tree} {stop : Stop tree} :
    stop ∈ stops tree index (plan.steps.drop index) s ↔
      ∃ position step t, plan.steps[position]? = some step ∧
        plan.Enters tree index s position t ∧
        stop = ⟨position, t.point.node, ((step.successors t).find? fun u =>
          (answer tree (plan.steps.drop (position + 1)) u).isSome).map fun u => u.point.node⟩ := by
  induction steps : plan.steps.drop index generalizing index s with
  | nil =>
    refine iff_of_false List.not_mem_nil ?_
    rintro ⟨position, step, t, here, enters, -⟩
    have inside := (List.getElem?_eq_some_iff.1 here).1
    have behind := List.drop_eq_nil_iff.1 steps
    have after := enters.le
    omega
  | cons step rest ih =>
    obtain ⟨here, rfl⟩ := drop_eq_cons steps
    rw [stops, List.mem_cons, List.mem_flatMap]
    constructor
    · rintro (rfl | ⟨t, mem, stopped⟩)
      · exact ⟨index, step, s, here, .start, rfl⟩
      · obtain ⟨position, later, u, later_here, enters, same⟩ := (ih rfl).1 stopped
        exact ⟨position, later, u, later_here,
          enters_iff.2 (.inr ⟨step, t, here, mem, enters⟩), same⟩
    · rintro ⟨position, later, u, later_here, enters, rfl⟩
      obtain ⟨rfl, rfl⟩ | ⟨first, t, first_here, mem, behind⟩ := enters_iff.1 enters
      · obtain rfl : step = later := Option.some.inj (here.symm.trans later_here)
        exact .inl rfl
      · obtain rfl : step = first := Option.some.inj (here.symm.trans first_here)
        exact .inr ⟨t, mem, (ih rfl).2 ⟨position, later, u, later_here, behind, rfl⟩⟩

/-- Where every step that reads the value has one before it that sets it, walks from two values take
the same branches, and their answers are none, the same, or these values; they are the same if a
value is set before the first null test. Without a step that reads the value it decides nothing. -/
theorem walk_alike (plan : Plan) (tree : Tree) (node : Fin tree.size) (u v : String) :
    (Guarded plan.steps →
      Alike u v (plan.walk tree ⟨node, u⟩).result (plan.walk tree ⟨node, v⟩).result ∧
      (Settled plan.steps →
        (plan.walk tree ⟨node, u⟩).result = (plan.walk tree ⟨node, v⟩).result) ∧
      stops tree 0 plan.steps ⟨⟨node, u⟩, []⟩ = stops tree 0 plan.steps ⟨⟨node, v⟩, []⟩) ∧
    ((∀ step ∈ plan.steps, step.readsValue = false) →
      (plan.walk tree ⟨node, u⟩).result.isSome = (plan.walk tree ⟨node, v⟩).result.isSome ∧
      stops tree 0 plan.steps ⟨⟨node, u⟩, []⟩ = stops tree 0 plan.steps ⟨⟨node, v⟩, []⟩) := by
  -- The starting state, whatever its value is.
  let s : State tree := ⟨⟨node, ""⟩, []⟩
  rw [walk_result, walk_result]
  refine ⟨fun guarded => ⟨alike_answer guarded s u v, fun settled => ?_, ?_⟩, fun ignored => ?_⟩
  · exact answer_eq_of_settled guarded settled s u v
  · exact stops_eq guarded 0 s u v
  · have guarded := guarded_of_not_reads ignored
    exact ⟨(alike_answer guarded s u v).isSome_eq, stops_eq guarded 0 s u v⟩

/-- One of two words is a version, and none is the whole sentence. -/
theorem walk_alike_words :
    let tree := ((Tree.leaf "sentence" "a 7").addChild (Tree.root _) "word" "a").addChild
      (Tree.root _) "word" "7"
    let version : Plan := ⟨[.path (.down .star none), .path .full, .cleanVersion .canonical], none⟩
    let absent : Plan := ⟨[.isNull, .path (.down .star none), .path (.test .equals "a 7")], none⟩
    Guarded version.steps ∧ Settled version.steps ∧
      (version.walk tree ⟨tree.root, "u"⟩).result = some "7" ∧
      (version.walk tree ⟨tree.root, "v"⟩).result = some "7" ∧
      (∀ step ∈ absent.steps, step.readsValue = false) ∧
      (absent.walk tree ⟨tree.root, "u"⟩).result = some "u" ∧
      (absent.walk tree ⟨tree.root, "v"⟩).result.isSome := by
  intro tree version absent
  have guarded : Guarded version.steps := by decide
  have settled : Settled version.steps :=
    ⟨[.path (.down .star none)], .path .full, [.cleanVersion .canonical], rfl, rfl, by simp⟩
  have ignored : ∀ step ∈ absent.steps, step.readsValue = false := by simp [absent, Step.readsValue]
  have found : (version.walk tree ⟨tree.root, "u"⟩).result = some "7" := by decide
  have missed : (absent.walk tree ⟨tree.root, "u"⟩).result = some "u" := by decide
  have same := ((version.walk_alike tree tree.root "u" "v").1 guarded).2.1 settled
  have both := ((absent.walk_alike tree tree.root "u" "v").2 ignored).1
  refine ⟨guarded, settled, found, same.symm.trans found, ignored, missed, ?_⟩
  rw [← both, missed]
  rfl

end Plan

end TreePattern
