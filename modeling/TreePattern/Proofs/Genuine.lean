import Mathlib.Data.List.Induction
import Mathlib.Data.List.Nodup
import TreePattern.Proofs.Navigation
import TreePattern.Tree.Build
/-!
Genuine trees: no node is listed twice, all nodes lie below the root, and the next and the previous
sibling undo each other. What is grown from a root is a genuine tree. The check of the links accepts
more: an accepted array is a genuine tree just if no list repeats a child and no node is an ancestor
of itself, and the check looks for neither.
-/
namespace TreePattern

section Neighbours

variable {α : Type} [DecidableEq α]

/-- Without repetition each neighbour is found from the other one. -/
theorem after?_eq_iff_before?_eq {x y : α} {xs : List α} (nodup : xs.Nodup) :
    after? x xs = some y ↔ before? y xs = some x := by
  have first : ∀ {front rest}, xs = front ++ x :: y :: rest → x ∉ front ∧ y ∉ front ++ [x] := by
    rintro front rest rfl
    grind
  rw [after?_eq_some_iff, before?_eq_some_iff]
  constructor
  · rintro ⟨front, rest, split, -⟩
    exact ⟨front, rest, split, (first split).2⟩
  · rintro ⟨front, rest, split, -⟩
    exact ⟨front, rest, split, (first split).1⟩

/-- Where a neighbour is always found from the other one, nothing repeats: what stands behind a
member that occurs for the first time occurs for the first time itself. -/
theorem nodup_of_before?_eq {xs : List α}
    (back : ∀ x y, after? x xs = some y → before? y xs = some x) : xs.Nodup := by
  have nodup_concat : ∀ {front : List α} {y : α},
      (front ++ [y]).Nodup ↔ y ∉ front ∧ front.Nodup := by
    intro front y
    rw [← List.concat_eq_append, List.nodup_concat]
  -- The induction grows an initial part of the list at its end, where the neighbour is new.
  suffices initial : ∀ front, front <+: xs → front.Nodup from initial xs List.prefix_rfl
  intro front
  induction front using List.reverseRecOn with
  | nil => exact fun _ => List.nodup_nil
  | append_singleton front y ih =>
    rintro ⟨rest, split⟩
    have nodup := ih ⟨y :: rest, by simpa using split⟩
    suffices new : y ∉ front from nodup_concat.2 ⟨new, nodup⟩
    rcases List.eq_nil_or_concat' front with rfl | ⟨front, x, rfl⟩
    · exact List.not_mem_nil
    · have split : xs = front ++ x :: y :: rest := by simpa using split.symm
      have first : x ∉ front := (nodup_concat.1 nodup).1
      obtain ⟨front', rest', split', new⟩ :=
        before?_eq_some_iff.1 (back x y (after?_eq_some_iff.2 ⟨front, rest, split, first⟩))
      rcases List.append_eq_append_iff.1 (split.symm.trans split') with
        ⟨between, rfl, -⟩ | ⟨between, rfl, behind⟩
      · grind
      · cases between with
        | nil => simpa using new
        | cons z between => grind

end Neighbours

/-! ### Growing -/

/-- Children come after their parent, and stand in ascending order. -/
def Grown (nodes : Array Node) : Prop :=
  ∀ ⦃i : Nat⦄ ⦃n : Node⦄, nodes[i]? = some n →
    n.children.Pairwise (· < ·) ∧ ∀ c ∈ n.children, i < c

theorem Grown.attach {nodes : Array Node} (grown : Grown nodes) (wf : WellFormed nodes)
    {parent : Nat} (hp : parent < nodes.size) (name text : String) :
    Grown (attach nodes parent name text) := by
  intro i n here
  rw [getElem?_attach] at here
  split at here
  · rw [← Option.some.inj here]
    simp
  · split at here
    · next same =>
      obtain ⟨m, old, rfl⟩ := Option.map_eq_some_iff.1 here
      obtain ⟨ascending, after⟩ := grown old
      have present : ∀ c ∈ m.children, c < nodes.size := by
        intro c listed
        obtain ⟨k, there, -⟩ := wf.child old listed
        exact (Array.getElem?_eq_some_iff.1 there).1
      refine ⟨List.pairwise_append.2 ⟨ascending, List.pairwise_singleton .., ?_⟩, ?_⟩
      · intro c listed d last
        rw [List.mem_singleton.1 last]
        exact present c listed
      · intro c listed
        rcases List.mem_append.1 listed with old_child | last
        · exact after c old_child
        · rw [List.mem_singleton.1 last, ← same]
          exact hp
    · exact grown here

namespace Tree

theorem grown_leaf (name text : String) : Grown (leaf name text).nodes := by
  intro i n here
  cases i with
  | zero =>
    have same : n = ⟨name, text, none, []⟩ := by simpa [leaf, eq_comm] using here
    simp [same]
  | succ i => simp [leaf] at here

/-- Whatever is grown from a root child by child has the order of its growth. -/
theorem grown_build {name text : String} {children : List (Nat × String × String)} {tree : Tree}
    (built : build? name text children = some tree) : Grown tree.nodes := by
  suffices every : ∀ (start : Tree), Grown start.nodes →
      children.foldlM (fun tree child =>
        (tree.node? child.1).map fun parent => tree.addChild parent child.2.1 child.2.2) start =
          some tree → Grown tree.nodes from every _ (grown_leaf name text) built
  clear built
  induction children with
  | nil =>
    intro start grown same
    rw [← Option.some.inj same]
    exact grown
  | cons child rest ih =>
    intro start grown built
    obtain ⟨larger, added, built⟩ := Option.bind_eq_some_iff.1 built
    obtain ⟨parent, -, rfl⟩ := Option.map_eq_some_iff.1 added
    exact ih _ (grown.attach start.wellFormed parent.isLt ..) built

/-- No child is listed twice, the root is an ancestor of every other node, and the next and the
previous sibling undo each other and differ from the node. -/
structure Genuine (tree : Tree) : Prop where
  nodup : ∀ i, (tree.children i).Nodup
  rooted : ∀ i, tree.Rooted i
  siblings : ∀ i j, tree.nextSibling i = some j ↔ tree.previousSibling j = some i
  next_ne : ∀ i, tree.nextSibling i ≠ some i
  previous_ne : ∀ i, tree.previousSibling i ≠ some i

variable {tree : Tree}

theorem nextSibling_of_mem {p i : Fin tree.size} (listed : i ∈ tree.children p) :
    tree.nextSibling i = after? i (tree.children p) := by
  rw [nextSibling_eq, mem_children_iff_parent.1 listed, Option.elim_some]

theorem previousSibling_of_mem {p i : Fin tree.size} (listed : i ∈ tree.children p) :
    tree.previousSibling i = before? i (tree.children p) := by
  rw [previousSibling_eq, mem_children_iff_parent.1 listed, Option.elim_some]

/-- No list repeats a child just if the siblings undo each other. -/
theorem nodup_children_iff :
    (∀ i, (tree.children i).Nodup) ↔
      ∀ i j, tree.nextSibling i = some j ↔ tree.previousSibling j = some i := by
  constructor
  · intro nodup i j
    constructor
    · intro next
      obtain ⟨p, up, up'⟩ := parent_of_sibling (.inl next)
      have listed := mem_children_iff_parent.2 up
      have listed' := mem_children_iff_parent.2 up'
      rw [nextSibling_of_mem listed] at next
      rw [previousSibling_of_mem listed']
      exact (after?_eq_iff_before?_eq (nodup p)).1 next
    · intro previous
      obtain ⟨p, up', up⟩ := parent_of_sibling (.inr previous)
      have listed := mem_children_iff_parent.2 up
      have listed' := mem_children_iff_parent.2 up'
      rw [previousSibling_of_mem listed'] at previous
      rw [nextSibling_of_mem listed]
      exact (after?_eq_iff_before?_eq (nodup p)).2 previous
  · intro undo p
    refine nodup_of_before?_eq fun i j next => ?_
    obtain ⟨listed, listed'⟩ := mem_of_after? next
    rw [← previousSibling_of_mem listed', ← undo, nextSibling_of_mem listed, next]

/-- Who cannot climb further has come to the root. -/
theorem rooted_of_climb_eq_none {k : Nat} {i : Fin tree.size} (high : tree.climb k i = none) :
    tree.Rooted i := by
  induction k generalizing i with
  | zero => cases high
  | succ k ih =>
    cases up : tree.parent i with
    | none =>
      rw [parent_eq_none_iff.1 up]
      exact rooted_root
    | some p =>
      rw [climb, up] at high
      exact (rooted_iff_of_parent up).2 (ih high)

/-- All nodes lie below the root just if none is an ancestor of itself. -/
theorem rooted_iff_acyclic :
    (∀ i, tree.Rooted i) ↔ ∀ i k, tree.climb (k + 1) i ≠ some i := by
  constructor
  · intro rooted i k
    exact (rooted i).climb_ne k
  · intro acyclic i
    cases high : tree.climb tree.size i with
    | some j =>
      obtain ⟨-, k, c, -, cycle⟩ := exists_climb_eq_self high
      exact absurd cycle (acyclic c k)
    | none => exact rooted_of_climb_eq_none high

theorem genuine_iff :
    tree.Genuine ↔
      (∀ i, (tree.children i).Nodup) ∧ ∀ i k, tree.climb (k + 1) i ≠ some i := by
  constructor
  · intro genuine
    exact ⟨genuine.nodup, rooted_iff_acyclic.1 genuine.rooted⟩
  · rintro ⟨nodup, acyclic⟩
    have undo := nodup_children_iff.1 nodup
    have previous_ne : ∀ i, tree.previousSibling i ≠ some i := by
      intro i same
      obtain ⟨p, up, -⟩ := parent_of_sibling (.inr same)
      rw [previousSibling_of_mem (mem_children_iff_parent.2 up)] at same
      obtain ⟨front, rest, -, new⟩ := before?_eq_some_iff.1 same
      simp at new
    exact {
      nodup
      rooted := rooted_iff_acyclic.2 acyclic
      siblings := undo
      next_ne := fun i same => previous_ne i ((undo i i).1 same)
      previous_ne }

/-- In the order of growth every ancestor comes before. -/
theorem lt_of_climb (grown : Grown tree.nodes) {k : Nat} {i j : Fin tree.size}
    (h : tree.climb (k + 1) i = some j) : j < i := by
  have parent_lt : ∀ {i p : Fin tree.size}, tree.parent i = some p → p < i := fun {i p} up =>
    (grown (tree.getElem?_val p)).2 i.val (mem_children_iff.1 (mem_children_iff_parent.2 up))
  induction k generalizing i with
  | zero =>
    obtain ⟨p, up, rfl⟩ : ∃ p, tree.parent i = some p ∧ p = j := by
      simpa [climb, Option.bind_eq_some_iff] using h
    exact parent_lt up
  | succ k ih =>
    rw [climb] at h
    obtain ⟨p, up, above⟩ := Option.bind_eq_some_iff.1 h
    exact (ih above).trans (parent_lt up)

theorem genuine_of_grown (grown : Grown tree.nodes) : tree.Genuine := by
  refine genuine_iff.2 ⟨fun i => List.Nodup.of_map Fin.val ?_, fun i k cycle =>
    lt_irrefl i (lt_of_climb grown cycle)⟩
  rw [children_map_val]
  exact (grown (tree.getElem?_val i)).1.imp ne_of_lt

/-- A tree that was grown from its root is genuine. An array that the check accepts is a genuine tree
just if no list repeats a child and no node is an ancestor of itself; the former means that siblings
undo each other, and the latter that all nodes lie below the root. -/
theorem genuine_of_accepted_iff {nodes : Array Node} {tree : Tree}
    (accepted : ofNodes nodes = .ok tree) :
    tree.nodes = nodes ∧
      (tree.Genuine ↔ (∀ i, (tree.children i).Nodup) ∧ ∀ i k, tree.climb (k + 1) i ≠ some i) ∧
      ((∀ i, (tree.children i).Nodup) ↔
        ∀ i j, tree.nextSibling i = some j ↔ tree.previousSibling j = some i) ∧
      ((∀ i, tree.Rooted i) ↔ ∀ i k, tree.climb (k + 1) i ≠ some i) ∧
      ∀ (name text : String) (children : List (Nat × String × String)) (built : Tree),
        build? name text children = some built → built.Genuine :=
  ⟨nodes_of_ofNodes accepted, genuine_iff, nodup_children_iff, rooted_iff_acyclic,
    fun _ _ _ _ built => genuine_of_grown (grown_build built)⟩

theorem genuine_of_accepted_iff_letters :
    let nodes : Array Node := #[⟨"a", "a", none, [1, 3]⟩, ⟨"b", "b", some 0, [2]⟩,
      ⟨"c", "c", some 1, []⟩, ⟨"d", "d", some 0, []⟩]
    ∃ tree : Tree, ofNodes nodes = .ok tree ∧ tree.nodes = nodes ∧
      build? "a" "a" [(0, "b", "b"), (1, "c", "c"), (0, "d", "d")] = some tree ∧ tree.Genuine ∧
      ∀ i k, tree.climb (k + 1) i ≠ some i := by
  intro nodes
  let tree : Tree := ⟨nodes, fault?_eq_none_iff.1 (by decide)⟩
  have accepted : ofNodes nodes = .ok tree := ofNodes_nodes tree
  have built : build? "a" "a" [(0, "b", "b"), (1, "c", "c"), (0, "d", "d")] = some tree := by decide
  obtain ⟨same, genuine, -, -, grown⟩ := genuine_of_accepted_iff accepted
  have all := grown _ _ _ tree built
  exact ⟨tree, accepted, same, built, all, (genuine.1 all).2⟩

/-- The check accepts an array in which a child is listed twice, and so is its own sibling, and in
which two nodes are the parents of each other, out of reach of the root. -/
theorem exists_accepted_not_genuine :
    let nodes : Array Node := #[⟨"a", "a", none, [1, 1]⟩, ⟨"b", "b", some 0, []⟩,
      ⟨"c", "c", some 3, [3]⟩, ⟨"d", "d", some 2, [2]⟩]
    ∃ tree : Tree, ofNodes nodes = .ok tree ∧ ¬ tree.Genuine ∧
      (∃ i, ¬ (tree.children i).Nodup) ∧ (∃ i, ¬ tree.Rooted i) ∧
      ∃ i, tree.nextSibling i = some i ∧ tree.previousSibling i ≠ some i := by
  intro nodes
  let tree : Tree := ⟨nodes, fault?_eq_none_iff.1 (by decide)⟩
  have repeated : ¬ (tree.children tree.root).Nodup := by decide
  have cycle : tree.climb 2 ⟨2, by decide⟩ = some ⟨2, by decide⟩ := by decide
  exact ⟨tree, ofNodes_nodes tree, fun genuine => repeated (genuine.nodup _), ⟨tree.root, repeated⟩,
    ⟨_, fun rooted => rooted.climb_ne 1 cycle⟩, ⟨1, by decide⟩, by decide, by decide⟩

end Tree

end TreePattern
