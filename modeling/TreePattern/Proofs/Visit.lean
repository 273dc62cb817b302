import TreePattern.Proofs.Reach
/-!
The states that a walk enters. A step tries what comes after it from one successor after another
until one succeeds, so the walk enters the successors up to the first that succeeds, and none of
the others. In every state that it enters, a walk holds just the defaults that the steps before
have made ready and not used up, wherever it started.
-/
namespace TreePattern

/-- The members that a search for the first success tries. -/
def tried {α β : Type} (attempt : α → Option β) : List α → List α
  | [] => []
  | x :: xs => x :: if (attempt x).isSome then [] else tried attempt xs

section Tried

variable {α β : Type} {attempt : α → Option β}

theorem tried_initial (xs : List α) : tried attempt xs <+: xs := by
  induction xs with
  | nil => exact List.prefix_rfl
  | cons x xs ih =>
    rw [tried]
    split
    · exact ⟨xs, rfl⟩
    · exact (List.prefix_cons_inj x).2 ih

theorem mem_of_mem_tried {x : α} {xs : List α} (h : x ∈ tried attempt xs) : x ∈ xs :=
  (tried_initial xs).subset h

/-- Only the last try can succeed. -/
theorem attempt_of_mem_dropLast_tried {x : α} {xs : List α}
    (h : x ∈ (tried attempt xs).dropLast) : attempt x = none := by
  induction xs with
  | nil => cases h
  | cons y ys ih =>
    rw [tried] at h
    split at h
    · cases h
    · next failed =>
      cases rest : tried attempt ys with
      | nil => rw [rest] at h; cases h
      | cons z zs =>
        rw [rest, List.dropLast_cons_cons, ← rest] at h
        rcases List.mem_cons.1 h with rfl | h
        · simpa using failed
        · exact ih h

/-- The search ends as its last try does. -/
theorem findSome?_eq_getLast?_tried (xs : List α) :
    xs.findSome? attempt = (tried attempt xs).getLast?.bind attempt := by
  induction xs with
  | nil => rfl
  | cons x xs ih =>
    rw [List.findSome?_cons, tried]
    cases h : attempt x with
    | some value => simp [h]
    | none =>
      rw [ih]
      cases rest : tried attempt xs with
      | nil => simp [h]
      | cons y ys => simp [List.getLast?_cons_cons]

/-- A search that fails has tried all members. -/
theorem tried_eq_self {xs : List α} (h : xs.findSome? attempt = none) : tried attempt xs = xs := by
  induction xs with
  | nil => rfl
  | cons x xs ih =>
    have failed := List.findSome?_eq_none_iff.1 h
    have rest := ih (List.findSome?_eq_none_iff.2 fun y hy => failed y (List.mem_cons_of_mem _ hy))
    simp [tried, failed x (List.mem_cons_self ..), rest]

theorem tried_map {γ : Type} (attempt : β → Option γ) (f : α → β) (xs : List α) :
    tried attempt (xs.map f) = (tried (attempt ∘ f) xs).map f := by
  induction xs with
  | nil => rfl
  | cons x xs ih =>
    simp only [List.map_cons, tried, Function.comp_apply, ih]
    split <;> rfl

/-- What is tried depends on which members succeed, not on what they give. -/
theorem tried_congr {γ : Type} {f : α → Option β} {g : α → Option γ}
    (same : ∀ x, (f x).isSome = (g x).isSome) (xs : List α) : tried f xs = tried g xs := by
  induction xs with
  | nil => rfl
  | cons x xs ih => rw [tried, tried, same, ih]

end Tried

theorem drop_eq_cons {α : Type} {xs rest : List α} {x : α} {i : Nat}
    (h : xs.drop i = x :: rest) : xs[i]? = some x ∧ xs.drop (i + 1) = rest := by
  rw [← List.head?_drop, ← List.tail_drop, h]
  exact ⟨rfl, rfl⟩

variable {tree : Tree}

namespace Plan

/-- A walk that enters the plan at `index` in the state `start` enters a position in a state. -/
inductive Enters (plan : Plan) (tree : Tree) (index : Nat) (start : State tree) :
    Nat → State tree → Prop where
  | start : Enters plan tree index start index start
  | next {position : Nat} {step : Step} {s t : State tree} :
      Enters plan tree index start position s → plan.steps[position]? = some step →
      t ∈ tried (answer tree (plan.steps.drop (position + 1))) (step.successors s) →
      Enters plan tree index start (position + 1) t

theorem Enters.le {plan : Plan} {index position : Nat} {start s : State tree}
    (h : plan.Enters tree index start position s) : index ≤ position := by
  induction h with
  | start => exact Nat.le_refl _
  | next _ _ _ ih => exact Nat.le_succ_of_le ih

/-- After its first step a walk enters what one of the tries enters. -/
theorem enters_iff {plan : Plan} {index position : Nat} {start s : State tree} :
    plan.Enters tree index start position s ↔
      (position = index ∧ s = start) ∨
        ∃ step t, plan.steps[index]? = some step ∧
          t ∈ tried (answer tree (plan.steps.drop (index + 1))) (step.successors start) ∧
          plan.Enters tree (index + 1) t position s := by
  constructor
  · intro h
    induction h with
    | start => exact .inl ⟨rfl, rfl⟩
    | next _ here mem ih =>
      rcases ih with ⟨rfl, rfl⟩ | ⟨first, t, first_here, first_mem, behind⟩
      · exact .inr ⟨_, _, here, mem, .start⟩
      · exact .inr ⟨first, t, first_here, first_mem, .next behind here mem⟩
  · rintro (⟨rfl, rfl⟩ | ⟨step, t, here, mem, behind⟩)
    · exact .start
    · induction behind with
      | start => exact .next .start here mem
      | next _ later_here later_mem ih => exact .next ih later_here later_mem

/-- The state with which a walk is resumed at a position. -/
def resumed (plan : Plan) (index : Nat) (start : Point tree) : State tree :=
  ⟨start, stack (pendingDefaults (plan.steps.take index)) []⟩

theorem walkFrom_eq_run (plan : Plan) (index : Nat) (start : Point tree) :
    plan.walkFrom tree index start = plan.run tree index (plan.resumed index start) := rfl

/-- A walk of the whole plan starts as if it was resumed at its start. -/
@[simp] theorem resumed_zero (plan : Plan) (start : Point tree) :
    plan.resumed 0 start = ⟨start, []⟩ := rfl

end Plan

end TreePattern
