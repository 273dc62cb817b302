import TreePattern.Tree.Basic
/-!
Moves from a node to the next and to the previous child of its parent. A parent may list a child
more than once; the first place where it does so counts.
-/
namespace TreePattern

/-- The member after the first occurrence of `x`. -/
def after? {α : Type} [DecidableEq α] (x : α) : List α → Option α
  | [] => none
  | y :: ys => if y = x then ys.head? else after? x ys

/-- The member before the first occurrence of `x`. -/
def before? {α : Type} [DecidableEq α] (x : α) : List α → Option α
  | y :: z :: rest => if y = x then none else if z = x then some y else before? x (z :: rest)
  | _ => none

section Neighbours

variable {α : Type} [DecidableEq α]

/-- The member after `x` stands right behind the first occurrence of `x`. -/
theorem after?_eq_some_iff {x y : α} {xs : List α} :
    after? x xs = some y ↔ ∃ front rest, xs = front ++ x :: y :: rest ∧ x ∉ front := by
  constructor
  · intro h
    induction xs with
    | nil => cases h
    | cons z zs ih =>
      by_cases same : z = x
      · rw [after?, if_pos same] at h
        obtain ⟨rest, rfl⟩ := List.head?_eq_some_iff.1 h
        exact ⟨[], rest, by rw [same]; rfl, List.not_mem_nil⟩
      · rw [after?, if_neg same] at h
        obtain ⟨front, rest, rfl, first⟩ := ih h
        exact ⟨z :: front, rest, rfl, by simp [Ne.symm same, first]⟩
  · rintro ⟨front, rest, rfl, first⟩
    induction front with
    | nil => simp [after?]
    | cons z front ih =>
      obtain ⟨ne, later⟩ := List.ne_and_not_mem_of_not_mem_cons first
      rw [List.cons_append, after?, if_neg ne.symm, ih later]

/-- The member before `y` stands right in front of the first occurrence of `y`. -/
theorem before?_eq_some_iff {x y : α} {xs : List α} :
    before? y xs = some x ↔ ∃ front rest, xs = front ++ x :: y :: rest ∧ y ∉ front ++ [x] := by
  constructor
  · intro h
    fun_induction before? y xs with
    | case1 => cases h
    | case2 z rest ne =>
      obtain rfl := Option.some.inj h
      exact ⟨[], rest, rfl, by simpa using Ne.symm ne⟩
    | case3 z w rest ne _ ih =>
      obtain ⟨front, rest, same, first⟩ := ih h
      exact ⟨z :: front, rest, by rw [same]; rfl, by simpa [Ne.symm ne] using first⟩
    | case4 => cases h
  · rintro ⟨front, rest, rfl, first⟩
    induction front with
    | nil =>
      have ne : x ≠ y := by simpa [eq_comm] using first
      simp [before?, ne]
    | cons z front ih =>
      obtain ⟨ne, later⟩ := List.ne_and_not_mem_of_not_mem_cons first
      have inner := ih later
      cases front with
      | nil => grind [before?]
      | cons w front => grind [before?]

theorem mem_of_after? {x y : α} {xs : List α} (h : after? x xs = some y) : x ∈ xs ∧ y ∈ xs := by
  obtain ⟨front, rest, rfl, -⟩ := after?_eq_some_iff.1 h
  simp

theorem mem_of_before? {x y : α} {xs : List α} (h : before? y xs = some x) : x ∈ xs ∧ y ∈ xs := by
  obtain ⟨front, rest, rfl, -⟩ := before?_eq_some_iff.1 h
  simp

theorem after?_map {β : Type} [DecidableEq β] {f : α → β} (inj : ∀ x y, f x = f y → x = y)
    (x : α) (xs : List α) : after? (f x) (xs.map f) = (after? x xs).map f := by
  induction xs with
  | nil => rfl
  | cons y ys ih =>
    by_cases same : y = x
    · simp [after?, same]
    · rw [List.map_cons, after?, after?, if_neg same, if_neg fun h => same (inj y x h), ih]

theorem before?_map {β : Type} [DecidableEq β] {f : α → β} (inj : ∀ x y, f x = f y → x = y)
    (x : α) (xs : List α) : before? (f x) (xs.map f) = (before? x xs).map f := by
  have same_iff : ∀ y, f y = f x ↔ y = x := fun y => ⟨inj y x, congrArg f⟩
  induction xs with
  | nil => rfl
  | cons y ys ih =>
    cases ys with
    | nil => rfl
    | cons z zs =>
      simp only [List.map_cons] at ih
      simp only [List.map_cons, before?, same_iff, ih]
      split
      · rfl
      · split <;> rfl

end Neighbours

namespace Tree

def nextSibling (tree : Tree) (i : Fin tree.size) : Option (Fin tree.size) :=
  (tree.parent i).bind fun p => after? i (tree.children p)

def previousSibling (tree : Tree) (i : Fin tree.size) : Option (Fin tree.size) :=
  (tree.parent i).bind fun p => before? i (tree.children p)

end Tree

end TreePattern
