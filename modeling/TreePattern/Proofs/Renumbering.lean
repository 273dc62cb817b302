import Mathlib.Data.Fin.VecNotation
import TreePattern.Plan.Walk
import TreePattern.Tree.Check
/-!
Walks in another numbering. Where a tree is found inside another one, node by node and with all its
links, whatever the numbers of the nodes and whatever else stands in the other tree, a walk from a
node and a walk from its image go through the same moves, and so they report the same.
-/
namespace TreePattern

/-- Puts the nodes of a tree into another one. Names, texts and links are kept, with the order of the
children and with children that are listed more than once. -/
structure Tree.Embedding (A B : Tree) where
  map : Fin A.size → Fin B.size
  injective : ∀ i j, map i = map j → i = j
  name_map : ∀ i, B.name (map i) = A.name i
  text_map : ∀ i, B.text (map i) = A.text i
  parent_map : ∀ i, B.parent (map i) = (A.parent i).map map
  children_map : ∀ i, B.children (map i) = (A.children i).map map

theorem ChildRange.select_map {α β : Type} (r : ChildRange) (f : α → β) (xs : List α) :
    r.select (xs.map f) = (r.select xs).map f := by
  rw [select, select, List.map_drop, List.map_take]

theorem firstSuccess_map {α β : Type} (attempt : β → Report) (f : α → β) (xs : List α) :
    firstSuccess attempt (xs.map f) = firstSuccess (fun x => attempt (f x)) xs := by
  induction xs with
  | nil => rfl
  | cons x xs ih => rw [List.map_cons, firstSuccess, firstSuccess, ih]

namespace Tree.Embedding

variable {A B : Tree} (f : Embedding A B)

def point (p : Point A) : Point B := ⟨f.map p.node, p.value⟩

def state (s : State A) : State B := ⟨f.point s.point, s.defaults⟩

theorem nextSibling_map (i : Fin A.size) :
    B.nextSibling (f.map i) = (A.nextSibling i).map f.map := by
  rw [nextSibling, nextSibling, f.parent_map]
  cases A.parent i with
  | none => rfl
  | some p =>
    rw [Option.map_some, Option.bind_some, Option.bind_some, f.children_map,
      after?_map f.injective]

theorem previousSibling_map (i : Fin A.size) :
    B.previousSibling (f.map i) = (A.previousSibling i).map f.map := by
  rw [previousSibling, previousSibling, f.parent_map]
  cases A.parent i with
  | none => rfl
  | some p =>
    rw [Option.map_some, Option.bind_some, Option.bind_some, f.children_map,
      before?_map f.injective]

theorem move_map (direction : Direction) (i : Fin A.size) :
    B.move direction (f.map i) = (A.move direction i).map f.map := by
  cases direction with
  | up => exact f.parent_map i
  | next => exact f.nextSibling_map i
  | previous => exact f.previousSibling_map i

theorem childrenNamed_map (i : Fin A.size) (name : Option String) :
    B.childrenNamed (f.map i) name = (A.childrenNamed i name).map f.map := by
  cases name with
  | none => exact f.children_map i
  | some name =>
    rw [childrenNamed, childrenNamed, f.children_map, List.filter_map]
    simp only [Function.comp_def, f.name_map]

/-- An operation leads from the image of a point to the images of the points that it reaches. -/
theorem outcomes_point (op : PathOp) (p : Point A) :
    op.outcomes B (f.point p) = (op.outcomes A p).map f.point := by
  cases op with
  | down range name =>
    simp [PathOp.outcomes, point, childrenNamed_map, ChildRange.select_map, Function.comp_def]
  | move direction =>
    simp [PathOp.outcomes, point, move_map, Option.toList_map, Function.comp_def]
  | test comparison literal =>
    by_cases holds : comparison.holds literal (A.text p.node) <;>
      simp [PathOp.outcomes, point, f.text_map, holds]
  | words range => simp [PathOp.outcomes, point, f.text_map, Function.comp_def]
  | full => simp [PathOp.outcomes, point, f.text_map]
  | fixed value => rfl

/-- Of the steps only those of the path depend on the tree. -/
theorem successors_state (step : Step) (s : State A) :
    step.successors (f.state s) = (step.successors s).map f.state := by
  cases step with
  | path op => simp [Step.successors, state, outcomes_point, Function.comp_def]
  | isNull => rfl
  | cleanVersion policy => simp [Step.successors, state, point, Function.comp_def]
  | pushDefault value => rfl
  | lookup name table withDefault =>
    cases withDefault <;> simp [Step.successors, state, point, Function.comp_def]

theorem trace_state (index : Nat) (steps : List Step) (s : State A) :
    trace B index steps (f.state s) = trace A index steps s := by
  induction steps generalizing index s with
  | nil => rfl
  | cons step rest ih =>
    have text : B.text (f.state s).point.node = A.text s.point.node := f.text_map s.point.node
    rw [trace, trace, successors_state, firstSuccess_map, funext (ih (index + 1)), text]
    rfl

theorem answer_state (steps : List Step) (s : State A) :
    answer B steps (f.state s) = answer A steps s := by
  rw [← trace_result B 0, trace_state, trace_result]

theorem run_state (plan : Plan) (index : Nat) (s : State A) :
    plan.run B index (f.state s) = plan.run A index s := by
  unfold Plan.run
  cases plan.sink with
  | none => simp only [answer_state]
  | some sink => exact f.trace_state index _ s

end Tree.Embedding

/-- Walks do not see how the nodes are numbered, nor what else a tree holds: from a node and from its
image they give one result and write the same lines, from the start or resumed anywhere. -/
theorem Plan.walk_eq_of_embedding {A B : Tree} (f : Tree.Embedding A B) (plan : Plan)
    (start : Point A) :
    plan.walk B (f.point start) = plan.walk A start ∧
      ∀ index, plan.walkFrom B index (f.point start) = plan.walkFrom A index start := by
  have run (index : Nat) (defaults : List String) :
      plan.run B index ⟨f.point start, defaults⟩ = plan.run A index ⟨start, defaults⟩ :=
    f.run_state plan index ⟨start, defaults⟩
  have text : B.text (f.point start).node = A.text start.node := f.text_map start.node
  refine ⟨?_, fun index => run index _⟩
  unfold walk
  split <;> simp only [run, text]

/-- The two words of a sentence, one of them listed twice, have other numbers in the second tree,
where two more nodes are each the parent of the other. -/
theorem Plan.walk_eq_of_embedding_words :
    let words : Array Node := #[⟨"sentence", "a b", none, [1, 2, 1]⟩, ⟨"word", "a", some 0, []⟩,
      ⟨"word", "b", some 0, []⟩]
    let others : Array Node := #[⟨"sentence", "a b", none, [3, 1, 3]⟩, ⟨"word", "b", some 0, []⟩,
      ⟨"loop", "c", some 4, [4]⟩, ⟨"word", "a", some 0, []⟩, ⟨"loop", "d", some 2, [2]⟩]
    let plan : Plan := ⟨[.path (.down .star none), .path (.move .next), .path .full], some .memory⟩
    ∃ A B, Tree.ofNodes words = .ok A ∧ Tree.ofNodes others = .ok B ∧
      ∃ f : Tree.Embedding A B, (∀ i, (f.map i).val = [0, 3, 1].getD i.val 0) ∧
        (plan.walk B ⟨f.map A.root, "v"⟩).result = some "b" ∧
        (plan.walk B ⟨f.map A.root, "v"⟩).lines = (plan.walk A ⟨A.root, "v"⟩).lines ∧
        plan.walkFrom B 1 ⟨f.map A.root, "v"⟩ = plan.walkFrom A 1 ⟨A.root, "v"⟩ := by
  intro words others plan
  let A : Tree := ⟨words, fault?_eq_none_iff.1 (by decide)⟩
  let B : Tree := ⟨others, fault?_eq_none_iff.1 (by decide)⟩
  let numbers : Fin A.size → Fin B.size := ![⟨0, by decide⟩, ⟨3, by decide⟩, ⟨1, by decide⟩]
  let f : Tree.Embedding A B :=
    ⟨numbers, by decide, by decide, by decide, by decide, by decide⟩
  obtain ⟨walk, resumed⟩ := plan.walk_eq_of_embedding f ⟨A.root, "v"⟩
  refine ⟨A, B, Tree.ofNodes_nodes A, Tree.ofNodes_nodes B, f, by decide, ?_, ?_, resumed 1⟩
  · exact (congrArg Report.result walk).trans (by decide)
  · exact congrArg Report.lines walk

end TreePattern
