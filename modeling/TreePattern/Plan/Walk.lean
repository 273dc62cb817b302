import TreePattern.Plan.Basic
/-!
Walking a plan, and the lines that a verbose walk leaves behind. Each step that is entered opens
a block of lines and closes it with the sign of its answer; the blocks of the steps that it tries
stand in between, one for each try.
-/
namespace TreePattern

structure Report where
  result : Option String
  lines : List String
  deriving DecidableEq, Repr

/-- Tries one member after another until one succeeds, and keeps the lines of all tries. -/
def firstSuccess {α : Type} (attempt : α → Report) : List α → Report
  | [] => ⟨none, []⟩
  | x :: xs =>
    match attempt x with
    | ⟨some value, lines⟩ => ⟨some value, lines⟩
    | ⟨none, lines⟩ =>
      let later := firstSuccess attempt xs
      ⟨later.result, lines ++ later.lines⟩

def sign : Option String → String
  | some _ => "+"
  | none => "-"

def shown (text : String) : String := ">>>" ++ text ++ "<<<"

def enterLine (index : Nat) (step : Step) (text value : String) : String :=
  Text.ofNat index ++ ": >>> " ++ step.text ++ " on " ++ shown text ++ " with " ++ quoted value

def leaveLine (index : Nat) (step : Step) (result : Option String) : String :=
  Text.ofNat index ++ ": <<< " ++ step.text ++ " (" ++ sign result ++ ")"

/-- Runs steps, the first of which has the given position, and reports each of them. -/
def trace (tree : Tree) : Nat → List Step → State tree → Report
  | _, [], s => ⟨some s.point.value, []⟩
  | index, step :: rest, s =>
    let inner := firstSuccess (trace tree (index + 1) rest) (step.successors s)
    let result := step.conclude s.point.value inner.result
    ⟨result, enterLine index step (tree.text s.point.node) s.point.value ::
      (inner.lines ++ [leaveLine index step result])⟩

theorem firstSuccess_result {α : Type} {attempt : α → Report} {f : α → Option String}
    (h : ∀ x, (attempt x).result = f x) (xs : List α) :
    (firstSuccess attempt xs).result = xs.findSome? f := by
  induction xs with
  | nil => rfl
  | cons x xs ih =>
    rw [firstSuccess, List.findSome?_cons, ← h x]
    rcases attempt x with ⟨_ | value, lines⟩
    · exact ih
    · rfl

/-- Reporting changes no answer. -/
@[simp] theorem trace_result (tree : Tree) (index : Nat) (steps : List Step) (s : State tree) :
    (trace tree index steps s).result = answer tree steps s := by
  induction steps generalizing index s with
  | nil => rfl
  | cons step rest ih =>
    rw [trace, answer, firstSuccess_result fun t => ih (index + 1) t]

namespace Plan

/-- Runs the steps from the given position on. -/
def run (plan : Plan) (tree : Tree) (index : Nat) (s : State tree) : Report :=
  match plan.sink with
  | none => ⟨answer tree (plan.steps.drop index) s, []⟩
  | some _ => trace tree index (plan.steps.drop index) s

/-- Walks from the given position on, with the defaults that the steps before it leave. -/
def walkFrom (plan : Plan) (tree : Tree) (index : Nat) (start : Point tree) : Report :=
  plan.run tree index ⟨start, stack (pendingDefaults (plan.steps.take index)) []⟩

/-- Walks the whole plan. A verbose walk also says which text it starts from. -/
def walk (plan : Plan) (tree : Tree) (start : Point tree) : Report :=
  match plan.steps, plan.sink with
  | first :: _, some _ =>
    let inner := plan.run tree 0 ⟨start, []⟩
    ⟨inner.result, ["Tree: " ++ shown (tree.text start.node), "Enter step: " ++ first.text] ++
      inner.lines ++ ["Leave step (" ++ sign inner.result ++ "): " ++ first.text]⟩
  | _, _ => plan.run tree 0 ⟨start, []⟩

end Plan

end TreePattern
