import TreePattern.Plan.Walk
import TreePattern.Tree.Build
/-!
How a run goes from step to step, and the states to which steps lead. A run of a step tries the step
that is linked to it, and no other. To walk steps without a null test and others behind them is to
try the others from each state that the first ones reach, in order. All of these states hold the same
defaults, namely those that a walk makes ready when it is resumed behind the first steps.
-/
namespace TreePattern

variable {tree : Tree}

/-- The states behind all steps, in the order in which they are tried. -/
def reached (tree : Tree) : List Step → State tree → List (State tree)
  | [], s => [s]
  | step :: rest, s => (step.successors s).flatMap (reached tree rest)

@[simp] theorem reached_nil (s : State tree) : reached tree [] s = [s] := rfl

@[simp] theorem reached_cons (step : Step) (rest : List Step) (s : State tree) :
    reached tree (step :: rest) s = (step.successors s).flatMap (reached tree rest) := rfl

theorem reached_singleton (step : Step) (s : State tree) :
    reached tree [step] s = step.successors s :=
  List.flatMap_singleton' _

theorem reached_append (first rest : List Step) (s : State tree) :
    reached tree (first ++ rest) s = (reached tree first s).flatMap (reached tree rest) := by
  induction first generalizing s with
  | nil => simp
  | cons step first ih =>
    rw [List.cons_append, reached_cons, reached_cons, List.flatMap_assoc, funext ih]

theorem findSome?_flatMap {α β γ : Type} (f : α → List β) (g : β → Option γ) (xs : List α) :
    (xs.flatMap f).findSome? g = xs.findSome? fun x => (f x).findSome? g := by
  induction xs with
  | nil => rfl
  | cons x xs ih =>
    rw [List.flatMap_cons, List.findSome?_append, ih, List.findSome?_cons]
    cases (f x).findSome? g <;> rfl

theorem result_firstSuccess {α : Type} (attempt : α → Report) (xs : List α) :
    (firstSuccess attempt xs).result = xs.findSome? fun x => (attempt x).result :=
  firstSuccess_result (fun _ => rfl) xs

theorem Step.conclude_of_ne {step : Step} (h : step ≠ .isNull) (value : String)
    (answer : Option String) : step.conclude value answer = answer := by
  cases step <;> first | rfl | exact absurd rfl h

/-- A failed rest is tried again from the next state reached, as deep in the steps as it lies. -/
theorem answer_append {first : List Step} (plain : ∀ step ∈ first, step ≠ .isNull)
    (rest : List Step) (s : State tree) :
    answer tree (first ++ rest) s = (reached tree first s).findSome? (answer tree rest) := by
  induction first generalizing s with
  | nil => cases h : answer tree rest s <;> simp [h]
  | cons step first ih =>
    have inner := ih fun step h => plain step (List.mem_cons_of_mem _ h)
    rw [List.cons_append, answer, Step.conclude_of_ne (plain step (List.mem_cons_self ..)),
      reached_cons, findSome?_flatMap]
    exact congrArg (List.findSome? · _) (funext inner)

/-- Every successor of a state holds the same defaults, those that are left after the step. -/
theorem defaults_of_mem_successors {step : Step} {s t : State tree} (h : t ∈ step.successors s) :
    t.defaults.reverse = pend s.defaults.reverse step := by
  cases step with
  | path op =>
    obtain ⟨p, -, rfl⟩ := List.mem_map.1 h
    rfl
  | isNull =>
    rw [List.mem_singleton.1 h]
    rfl
  | cleanVersion policy =>
    obtain ⟨v, -, rfl⟩ := List.mem_map.1 h
    rfl
  | pushDefault value =>
    rw [List.mem_singleton.1 h]
    exact List.reverse_cons
  | lookup name table withDefault =>
    cases withDefault <;> obtain ⟨v, -, rfl⟩ := List.mem_map.1 h
    · rfl
    · simp [pend, List.dropLast_reverse]

theorem defaults_of_mem_reached {steps : List Step} {s t : State tree}
    (h : t ∈ reached tree steps s) : t.defaults.reverse = steps.foldl pend s.defaults.reverse := by
  induction steps generalizing s with
  | nil => rw [List.mem_singleton.1 h]; rfl
  | cons step steps ih =>
    obtain ⟨u, between, behind⟩ := List.mem_flatMap.1 h
    rw [ih behind, defaults_of_mem_successors between, List.foldl_cons]

/-- A reached state is known by its point. -/
theorem reached_eq_map (steps : List Step) (s : State tree) :
    reached tree steps s = ((reached tree steps s).map State.point).map
      fun p => ⟨p, (steps.foldl pend s.defaults.reverse).reverse⟩ := by
  rw [List.map_map]
  refine (List.map_id _).symm.trans (List.map_congr_left fun t h => ?_)
  rw [Function.comp_apply, ← defaults_of_mem_reached h, List.reverse_reverse]
  rfl

theorem stack_eq_append (pending defaults : List String) :
    stack pending defaults = pending.reverse ++ defaults := by
  induction pending generalizing defaults with
  | nil => rfl
  | cons value rest ih => rw [stack, ih, List.reverse_cons, List.append_assoc]; rfl

/-- A resumed walk holds the defaults that it would hold if it had taken the skipped steps. -/
theorem stack_pendingDefaults (steps : List Step) :
    stack (pendingDefaults steps) [] = (steps.foldl pend []).reverse := by
  rw [stack_eq_append, List.append_nil, pendingDefaults]

namespace Plan

theorem run_result (plan : Plan) (index : Nat) (s : State tree) :
    (plan.run tree index s).result = answer tree (plan.steps.drop index) s := by
  unfold run
  split
  · rfl
  · exact trace_result ..

/-- Goes on at a position, if there is one, and otherwise has found the value that it holds. -/
def runAt (plan : Plan) (tree : Tree) : Option Nat → State tree → Report
  | some index, s => plan.run tree index s
  | none, s => ⟨some s.point.value, []⟩

/-- To go on behind a position is to go on at the position linked to it. -/
theorem runAt_next? (plan : Plan) (index : Nat) (s : State tree) :
    plan.runAt tree (plan.next? index) s = plan.run tree (index + 1) s := by
  unfold next?
  split
  · rfl
  · next past =>
    rw [run, List.drop_eq_nil_of_le (Nat.le_of_not_lt past)]
    cases plan.sink <;> rfl

/-- A run of a step tries the step linked to it from each state to which it leads, in order, and tells
the sink under its own position. -/
theorem run_of_placed {plan : Plan} {place : Placed} (mem : place ∈ plan.placed) (s : State tree) :
    let inner := firstSuccess (plan.runAt tree place.next) (place.step.successors s)
    let result := place.step.conclude s.point.value inner.result
    plan.run tree place.index s = ⟨result,
      if plan.sink.isSome then
        enterLine place.index place.step (tree.text s.point.node) s.point.value ::
          (inner.lines ++ [leaveLine place.index place.step result])
      else []⟩ := by
  intro inner result
  obtain ⟨here, next⟩ := mem_placed_iff.1 mem
  obtain ⟨inside, step⟩ := List.getElem?_eq_some_iff.1 here
  have split : plan.steps.drop place.index =
      place.step :: plan.steps.drop (place.index + 1) := by
    rw [List.drop_eq_getElem_cons inside, step]
  have behind : plan.runAt tree place.next = plan.run tree (place.index + 1) := by
    rw [next]
    exact funext (plan.runAt_next? place.index)
  simp only [result, inner, behind]
  unfold run
  rw [split]
  cases plan.sink with
  | none =>
    rw [answer, result_firstSuccess]
    rfl
  | some _ => rfl

@[simp] theorem walk_result (plan : Plan) (start : Point tree) :
    (plan.walk tree start).result = answer tree plan.steps ⟨start, []⟩ := by
  unfold walk
  split <;> simp only [run_result, List.drop_zero]

@[simp] theorem walkFrom_result (plan : Plan) (index : Nat) (start : Point tree) :
    (plan.walkFrom tree index start).result =
      answer tree (plan.steps.drop index)
        ⟨start, stack (pendingDefaults (plan.steps.take index)) []⟩ :=
  run_result ..

/-- A walk is the first success of its resumptions, each from one of the points that the skipped
steps reach. All branches leave the defaults with which the walk is resumed. -/
theorem walk_eq_findSome?_walkFrom (plan : Plan) (tree : Tree) (index : Nat) (start : Point tree)
    (plain : ∀ step ∈ plan.steps.take index, step ≠ .isNull) :
    (plan.walk tree start).result =
        ((reached tree (plan.steps.take index) ⟨start, []⟩).map State.point).findSome?
          (fun p => (plan.walkFrom tree index p).result) ∧
      (∀ s ∈ reached tree (plan.steps.take index) ⟨start, []⟩,
        s.defaults = stack (pendingDefaults (plan.steps.take index)) []) ∧
      (plan.walkFrom tree 0 start).result = (plan.walk tree start).result := by
  have reached_points := reached_eq_map (plan.steps.take index) ⟨start, []⟩
  refine ⟨?_, ?_, ?_⟩
  · rw [walk_result, ← List.take_append_drop index plan.steps, answer_append plain,
      reached_points, List.findSome?_map]
    simp [stack_pendingDefaults, Function.comp_def]
  · intro s h
    rw [stack_pendingDefaults, ← List.reverse_reverse s.defaults, defaults_of_mem_reached h]
    rfl
  · simp [pendingDefaults, stack]

theorem walk_eq_findSome?_walkFrom_words :
    let tree := ((Tree.leaf "sentence" "a b").addChild (Tree.root _) "word" "a").addChild
      (Tree.root _) "word" "b"
    let plan : Plan := ⟨[.pushDefault "outer", .pushDefault "inner", .path (.down .star none),
      .lookup "numbers" .empty true, .path (.test .equals "b"), .lookup "letters" .empty true],
      none⟩
    let points := (reached tree (plan.steps.take 4) ⟨⟨tree.root, ""⟩, []⟩).map State.point
    (∀ step ∈ plan.steps.take 4, step ≠ .isNull) ∧
      points.map (fun p => (tree.text p.node, p.value)) = [("a", "inner"), ("b", "inner")] ∧
      points.map (fun p => (plan.walkFrom tree 4 p).result) = [none, some "outer"] ∧
      (plan.walk tree ⟨tree.root, ""⟩).result =
        points.findSome? fun p => (plan.walkFrom tree 4 p).result := by
  intro tree plan points
  have plain : ∀ step ∈ plan.steps.take 4, step ≠ .isNull := by simp [plan]
  exact ⟨plain, by decide, by decide, (walk_eq_findSome?_walkFrom plan tree 4 _ plain).1⟩

end Plan

end TreePattern
