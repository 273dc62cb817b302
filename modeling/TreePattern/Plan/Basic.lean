import TreePattern.Plan.Sink
import TreePattern.Plan.Step
/-!
Plans and what they answer. A plan is the list of steps of a compiled pattern, each linked to the
one behind it. To run it from a state is to try the successors of the first step in order and to
take the first answer that the rest of the steps gives from one of them.
-/
namespace TreePattern

structure Plan where
  steps : List Step
  sink : Option Sink

/-- A step in its place: its position in the plan, and that of the step behind it. -/
structure Placed where
  index : Nat
  next : Option Nat
  step : Step

namespace Plan

/-- The position behind the given one, if a step stands there. -/
def next? (plan : Plan) (index : Nat) : Option Nat :=
  if index + 1 < plan.steps.length then some (index + 1) else none

/-- The steps in their places. No step stands behind the last one. -/
def placed (plan : Plan) : List Placed :=
  plan.steps.zipIdx.map fun p => ⟨p.2, plan.next? p.2, p.1⟩

theorem mem_placed_iff {plan : Plan} {place : Placed} :
    place ∈ plan.placed ↔
      plan.steps[place.index]? = some place.step ∧ place.next = plan.next? place.index := by
  rw [placed, List.mem_map]
  constructor
  · rintro ⟨⟨step, index⟩, mem, rfl⟩
    exact ⟨List.mk_mem_zipIdx_iff_getElem?.1 mem, rfl⟩
  · rintro ⟨here, next⟩
    exact ⟨(place.step, place.index), List.mk_mem_zipIdx_iff_getElem?.2 here, by rw [← next]⟩

end Plan

def answer (tree : Tree) : List Step → State tree → Option String
  | [], s => some s.point.value
  | step :: rest, s =>
    step.conclude s.point.value ((step.successors s).findSome? (answer tree rest))

/-- The defaults that are left after one more step, outermost first. To use up a default where none
is left changes nothing. -/
def pend (pending : List String) : Step → List String
  | .pushDefault value => pending ++ [value]
  | .lookup _ _ true => pending.dropLast
  | _ => pending

def pendingDefaults (steps : List Step) : List String := steps.foldl pend []

/-- Stacks defaults, the outermost first, on those that are there. -/
def stack : List String → List String → List String
  | [], defaults => defaults
  | value :: rest, defaults => stack rest (value :: defaults)

def Plan.text (plan : Plan) : String :=
  match plan.steps with
  | [] => "Empty"
  | steps => String.join (steps.map fun step => " --> " ++ step.text)

end TreePattern
