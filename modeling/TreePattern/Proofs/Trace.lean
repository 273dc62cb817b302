import TreePattern.Plan.Walk
import TreePattern.Proofs.Visit
/-!
What a verbose walk writes. Each execution of a step writes a block: a line on entry, the complete
blocks of the step behind it, one for each try, and a line on exit with the sign of its result. The
blocks inside show which tries there were, and their signs explain the sign of the whole.
-/
namespace TreePattern

variable {tree : Tree}

/-- An execution of a step: the state in which it was entered, and what it reported. -/
structure Execution (tree : Tree) where
  state : State tree
  report : Report

/-- How the result of a step with others behind it follows from the executions that it tried. A move
to the children tries them in order up to the first that succeeds, a null test turns its only try
around, and every other step has the result of its only try, or none without a try. -/
def Step.Accounts (s : State tree) (tries : List (Execution tree)) (result : Option String) :
    Step → Prop
  | .path (.down range name) =>
    let candidates := range.select (tree.childrenNamed s.point.node name)
    tries.map Execution.state <+: candidates.map (fun c => ⟨⟨c, s.point.value⟩, s.defaults⟩) ∧
      (∀ e ∈ tries.dropLast, e.report.result = none) ∧
      result = tries.getLast?.bind (·.report.result) ∧
      (result = none → tries.length = candidates.length)
  | .isNull => ∃ e, tries = [e] ∧ e.state = s ∧ result.isSome = !e.report.result.isSome
  | _ => (∃ e, tries = [e] ∧ e.report.result = result) ∨ tries = [] ∧ result = none

/-- The lines of an execution of the step at `index` form a block. -/
inductive Block (plan : Plan) (tree : Tree) : Nat → Execution tree → Prop where
  | intro {index : Nat} {step : Step} {e : Execution tree} (tries : List (Execution tree))
      (here : plan.steps[index]? = some step)
      (blocks : ∀ t ∈ tries, Block plan tree (index + 1) t)
      (lines : e.report.lines =
        enterLine index step (tree.text e.state.point.node) e.state.point.value ::
          (tries.flatMap (·.report.lines) ++ [leaveLine index step e.report.result]))
      (last : index + 1 = plan.steps.length → tries = [])
      (more : index + 1 < plan.steps.length → step.Accounts e.state tries e.report.result) :
      Block plan tree index e

/-- A search leaves the lines of all that it has tried. -/
theorem firstSuccess_lines {α : Type} (attempt : α → Report) (xs : List α) :
    (firstSuccess attempt xs).lines =
      (tried (fun x => (attempt x).result) xs).flatMap fun x => (attempt x).lines := by
  induction xs with
  | nil => rfl
  | cons x xs ih =>
    rw [firstSuccess, tried, List.flatMap_cons]
    rcases h : attempt x with ⟨_ | value, lines⟩
    · simp [ih]
    · simp

/-- Only a move to the children can lead to more than one state. -/
theorem Step.length_successors_le {step : Step}
    (single : ∀ range name, step ≠ .path (.down range name)) (s : State tree) :
    (step.successors s).length ≤ 1 := by
  cases step with
  | path op =>
    cases op with
    | down range name => exact absurd rfl (single range name)
    | test comparison literal => simp only [successors, PathOp.outcomes]; split <;> simp
    | _ => simp [successors, PathOp.outcomes]
  | lookup name table withDefault => cases withDefault <;> simp [successors]
  | _ => simp [successors]

/-- The executions that a search for the first success starts. -/
def executions (attempt : State tree → Report) (states : List (State tree)) :
    List (Execution tree) :=
  (tried (fun t => (attempt t).result) states).map fun t => ⟨t, attempt t⟩

@[simp] theorem map_state_executions (attempt : State tree → Report) (states : List (State tree)) :
    (executions attempt states).map Execution.state =
      tried (fun t => (attempt t).result) states := by
  rw [executions, List.map_map]
  exact List.map_id _

theorem lines_executions (attempt : State tree → Report) (states : List (State tree)) :
    (executions attempt states).flatMap (·.report.lines) = (firstSuccess attempt states).lines := by
  rw [firstSuccess_lines, executions, List.flatMap_map]

theorem Step.accounts_single {step : Step} {s : State tree} {attempt : State tree → Report}
    (single : (step.successors s).length ≤ 1) :
    let tries := executions attempt (step.successors s)
    let result := (step.successors s).findSome? fun t => (attempt t).result
    (∃ e, tries = [e] ∧ e.report.result = result) ∨ tries = [] ∧ result = none := by
  match h : step.successors s with
  | [] => exact .inr ⟨rfl, rfl⟩
  | [t] => exact .inl ⟨⟨t, attempt t⟩, by simp [executions, tried], by simp⟩
  | _ :: _ :: _ => simp [h] at single

theorem Step.accounts_down {range : ChildRange} {name : Option String} {s : State tree}
    (attempt : State tree → Report) :
    let step := Step.path (.down range name)
    step.Accounts s (executions attempt (step.successors s))
      ((step.successors s).findSome? fun t => (attempt t).result) := by
  intro step
  have states : step.successors s = (range.select (tree.childrenNamed s.point.node name)).map
      fun c => ⟨⟨c, s.point.value⟩, s.defaults⟩ := by
    simp [step, successors, PathOp.outcomes]
  refine ⟨?_, ?_, ?_, ?_⟩
  · rw [map_state_executions, ← states]
    exact tried_initial _
  · intro e h
    rw [executions, ← List.map_dropLast] at h
    obtain ⟨t, mem, rfl⟩ := List.mem_map.1 h
    have failed := attempt_of_mem_dropLast_tried mem
    exact failed
  · rw [findSome?_eq_getLast?_tried, executions, List.getLast?_map]
    cases (tried (fun t => (attempt t).result) (step.successors s)).getLast? <;> rfl
  · intro failed
    rw [executions, List.length_map, tried_eq_self failed, states, List.length_map]

/-- The result of a step follows from its tries. -/
theorem Step.accounts_executions (step : Step) (s : State tree) (attempt : State tree → Report) :
    step.Accounts s (executions attempt (step.successors s))
      (step.conclude s.point.value
        ((step.successors s).findSome? fun t => (attempt t).result)) := by
  cases step with
  | path op =>
    cases op with
    | down range name => exact accounts_down attempt
    | _ => exact accounts_single (length_successors_le (by simp) s)
  | isNull =>
    refine ⟨⟨s, attempt s⟩, by simp [executions, tried, successors], rfl, ?_⟩
    rw [successors, List.findSome?_singleton]
    cases (attempt s).result <;> rfl
  | _ => exact accounts_single (length_successors_le (by simp) s)

/-- The trace of the steps from a position on is a block of that position. -/
theorem block_trace (plan : Plan) {step : Step} {rest : List Step} {index : Nat}
    (split : plan.steps.drop index = step :: rest) (s : State tree) :
    Block plan tree index ⟨s, trace tree index (step :: rest) s⟩ := by
  induction rest generalizing step index s with
  | nil =>
    obtain ⟨here, -⟩ := drop_eq_cons split
    have length := congrArg List.length split
    rw [List.length_drop, List.length_singleton] at length
    -- No step comes after this one, so a try succeeds at once and writes nothing.
    have silent : (firstSuccess (trace tree (index + 1) []) (step.successors s)).lines = [] := by
      rw [firstSuccess_lines, List.flatMap_eq_nil_iff]
      intro t _
      rfl
    refine .intro [] here (by simp) ?_ (fun _ => rfl) (fun more => by omega)
    rw [trace, silent]
    rfl
  | cons next rest ih =>
    obtain ⟨here, behind⟩ := drop_eq_cons split
    have length := congrArg List.length split
    rw [List.length_drop, List.length_cons, List.length_cons] at length
    let attempt := trace tree (index + 1) (next :: rest)
    refine .intro (executions attempt (step.successors s)) here ?_ ?_ (fun last => by omega) ?_
    · intro t mem
      obtain ⟨u, -, rfl⟩ := List.mem_map.1 mem
      exact ih behind u
    · rw [lines_executions, trace]
    · intro _
      rw [trace, result_firstSuccess]
      exact step.accounts_executions s attempt

namespace Plan

theorem run_of_sink {plan : Plan} (verbose : plan.sink.isSome) (index : Nat) (s : State tree) :
    plan.run tree index s = trace tree index (plan.steps.drop index) s := by
  obtain ⟨sink, h⟩ := Option.isSome_iff_exists.1 verbose
  rw [run, h]

/-- The lines of a verbose walk are those of the steps that it enters. -/
theorem mem_lines_run_iff {plan : Plan} (verbose : plan.sink.isSome) {index : Nat}
    {start : State tree} {line : String} :
    line ∈ (plan.run tree index start).lines ↔
      ∃ position s step, plan.Enters tree index start position s ∧
        plan.steps[position]? = some step ∧
        (line = enterLine position step (tree.text s.point.node) s.point.value ∨
          line = leaveLine position step (answer tree (plan.steps.drop position) s)) := by
  rw [run_of_sink verbose]
  generalize split : plan.steps.drop index = rest
  induction rest generalizing index start with
  | nil =>
    refine ⟨fun h => by simp [trace] at h, ?_⟩
    rintro ⟨position, s, step, enters, here, -⟩
    have past := Nat.le_trans (List.drop_eq_nil_iff.1 split) enters.le
    rw [List.getElem?_eq_none past] at here
    cases here
  | cons step rest ih =>
    obtain ⟨here, behind⟩ := drop_eq_cons split
    have result : step.conclude start.point.value
        (firstSuccess (trace tree (index + 1) rest) (step.successors start)).result =
          answer tree (plan.steps.drop index) start := by
      rw [split, ← trace_result tree index]
      rfl
    have attempts : (fun t => (trace tree (index + 1) rest t).result) =
        answer tree (plan.steps.drop (index + 1)) := by
      rw [behind]
      exact funext fun t => trace_result ..
    rw [trace, List.mem_cons, List.mem_append, List.mem_singleton, firstSuccess_lines, attempts,
      List.mem_flatMap, result]
    constructor
    · rintro (rfl | ⟨t, tries, inside⟩ | rfl)
      · exact ⟨index, start, step, .start, here, .inl rfl⟩
      · obtain ⟨position, s, other, enters, there, shape⟩ := (ih behind).1 inside
        exact ⟨position, s, other, enters_iff.2 (.inr ⟨step, t, here, tries, enters⟩), there, shape⟩
      · exact ⟨index, start, step, .start, here, .inr rfl⟩
    · rintro ⟨position, s, other, enters, there, shape⟩
      rcases enters_iff.1 enters with ⟨rfl, rfl⟩ | ⟨first, t, first_here, tries, later⟩
      · obtain rfl := Option.some.inj (here.symm.trans there)
        rcases shape with shape | shape
        · exact .inl shape
        · exact .inr (.inr shape)
      · obtain rfl := Option.some.inj (here.symm.trans first_here)
        exact .inr (.inl ⟨t, tries, (ih behind).2 ⟨position, s, other, later, there, shape⟩⟩)

/-- A walk of the whole plan adds its own lines to those of the walk resumed at the start. -/
theorem walk_lines_cons {plan : Plan} (verbose : plan.sink.isSome) {first : Step}
    {rest : List Step} (steps : plan.steps = first :: rest) (start : Point tree) :
    (plan.walk tree start).lines =
      ["Tree: >>>" ++ tree.text start.node ++ "<<<", "Enter step: " ++ first.text] ++
        (plan.walkFrom tree 0 start).lines ++
        ["Leave step (" ++ sign (plan.walk tree start).result ++ "): " ++ first.text] := by
  obtain ⟨sink, h⟩ := Option.isSome_iff_exists.1 verbose
  have shown_text : "Tree: " ++ shown (tree.text start.node) =
      "Tree: >>>" ++ tree.text start.node ++ "<<<" := by
    rw [shown, ← String.append_assoc, ← String.append_assoc]
    rfl
  rw [← shown_text]
  obtain ⟨all, _⟩ := plan
  subst h steps
  rfl

/-- A verbose walk writes one block for each execution of a step: its entry, the complete blocks of
the step behind it and its exit, whose sign tells whether there is a result. A walk from the start
writes the same lines between its own, and a walk without steps ahead of it writes nothing. -/
theorem block_run {plan : Plan} (verbose : plan.sink.isSome) (tree : Tree) :
    (∀ (index : Nat) (s : State tree), index < plan.steps.length →
      Block plan tree index ⟨s, plan.run tree index s⟩) ∧
    (∀ result : Option String, sign result = if result.isSome then "+" else "-") ∧
    (∀ (first : Step) (rest : List Step) (start : Point tree), plan.steps = first :: rest →
      (plan.walk tree start).lines =
        ["Tree: >>>" ++ tree.text start.node ++ "<<<", "Enter step: " ++ first.text] ++
          (plan.walkFrom tree 0 start).lines ++
          ["Leave step (" ++ sign (plan.walk tree start).result ++ "): " ++ first.text]) ∧
    (plan.steps = [] → ∀ start : Point tree, (plan.walk tree start).lines = []) ∧
    ∀ (index : Nat) (start : Point tree), plan.steps.length ≤ index →
      (plan.walkFrom tree index start).lines = [] := by
  have ends (index : Nat) (start : Point tree) (past : plan.steps.length ≤ index) :
      (plan.walkFrom tree index start).lines = [] := by
    rw [walkFrom_eq_run, run_of_sink verbose, List.drop_of_length_le past]
    rfl
  refine ⟨?_, ?_, ?_, ?_, ends⟩
  · intro index s lt
    have split := List.drop_eq_getElem_cons lt
    rw [run_of_sink verbose, split]
    exact block_trace plan split s
  · intro result
    cases result <;> rfl
  · intro first rest start steps
    exact walk_lines_cons verbose steps start
  · intro nothing start
    have same : plan.walk tree start = plan.walkFrom tree 0 start := by
      rw [walk, nothing]
      rfl
    rw [same]
    exact ends 0 start (by rw [nothing]; exact Nat.le_refl _)

theorem block_run_words :
    let tree := ((Tree.leaf "sentence" "a b").addChild (Tree.root _) "word" "a").addChild
      (Tree.root _) "word" "b"
    let plan : Plan := ⟨[.path (.down .star none), .path (.test .equals "b"), .path .full],
      some .memory⟩
    let start : Point tree := ⟨tree.root, "v"⟩
    plan.sink.isSome ∧ 0 < plan.steps.length ∧
      Block plan tree 0 ⟨⟨start, []⟩, plan.walkFrom tree 0 start⟩ ∧
      (plan.walkFrom tree 0 start).lines =
        ["0: >>> Down((1-10)) on >>>a b<<< with \"v\"", "1: >>> Equals(b) on >>>a<<< with \"v\"",
          "1: <<< Equals(b) (-)", "1: >>> Equals(b) on >>>b<<< with \"v\"",
          "2: >>> BackToFull() on >>>b<<< with \"v\"", "2: <<< BackToFull() (+)",
          "1: <<< Equals(b) (+)", "0: <<< Down((1-10)) (+)"] := by
  intro tree plan start
  exact ⟨rfl, by decide, (block_run rfl tree).1 0 ⟨start, []⟩ (by decide), by decide⟩

end Plan

end TreePattern
