import Mathlib.Data.Fintype.Pigeonhole
import Mathlib.Tactic.Choose
import TreePattern.Proofs.Visit
import TreePattern.Tree.Check
/-!
Moving about in a tree. The links of an array that the check accepts never name a position that is
not there, however long they are followed, and they lead where the moves of the tree lead. Each move
keeps the root among the ancestors of the node, so whatever is reached from the root comes back to
it along parents, and no node on a cycle is reached.
-/
namespace TreePattern

/-- A move from a node to one that is linked to it. -/
inductive Move where
  /-- To the child at a position, counted from zero. -/
  | child (position : Nat)
  | go (direction : Direction)
  deriving DecidableEq, Repr

/-! Links are followed in any array, checked or not. A position at which there is no node stops the
search with an error. -/
namespace Links

def read (nodes : Array Node) (i : Nat) : Except Nat Node :=
  match nodes[i]? with
  | some n => .ok n
  | none => .error i

/-- The list in which a node stands among its siblings. -/
def siblings (nodes : Array Node) (i : Nat) : Except Nat (List Nat) := do
  match (← read nodes i).parent with
  | some p => return (← read nodes p).children
  | none => return []

def follow (nodes : Array Node) : Move → Nat → Except Nat (Option Nat)
  | .child position, i => do return (← read nodes i).children[position]?
  | .go .up, i => do return (← read nodes i).parent
  | .go .next, i => do return after? i (← siblings nodes i)
  | .go .previous, i => do return before? i (← siblings nodes i)

/-- Where a sequence of moves ends, if each of them leads somewhere. The last node is read as well. -/
def trail (nodes : Array Node) : List Move → Nat → Except Nat (Option Nat)
  | [], i => do
    let _ ← read nodes i
    return some i
  | move :: rest, i => do
    match ← follow nodes move i with
    | some j => trail nodes rest j
    | none => return none

end Links

namespace Tree

def follow (tree : Tree) : Move → Fin tree.size → Option (Fin tree.size)
  | .child position, i => (tree.children i)[position]?
  | .go direction, i => tree.move direction i

def trail (tree : Tree) : List Move → Fin tree.size → Option (Fin tree.size)
  | [], i => some i
  | move :: rest, i => (tree.follow move i).bind (tree.trail rest)

/-- Goes to the parent a number of times. -/
def climb (tree : Tree) : Nat → Fin tree.size → Option (Fin tree.size)
  | 0, i => some i
  | k + 1, i => (tree.parent i).bind (tree.climb k)

/-- The root is an ancestor of the node, or the node itself. -/
def Rooted (tree : Tree) (i : Fin tree.size) : Prop := ∃ k, tree.climb k i = some tree.root

variable {tree : Tree}

/-! ### The links of a tree -/

theorem read_eq_node (i : Fin tree.size) : Links.read tree.nodes i = .ok (tree.node i) := by
  rw [Links.read, tree.getElem?_val]

theorem siblings_eq (i : Fin tree.size) :
    Links.siblings tree.nodes i =
      .ok (((tree.parent i).elim [] tree.children).map Fin.val) := by
  rw [Links.siblings, read_eq_node]
  have up := tree.parent_map_val i
  cases parent : tree.parent i with
  | none =>
    rw [parent] at up
    simp [bind, Except.bind, ← up]
    rfl
  | some p =>
    rw [parent] at up
    simp only [bind, Except.bind, ← up, Option.map_some, read_eq_node, Option.elim_some,
      children_map_val]
    rfl

theorem nextSibling_eq (i : Fin tree.size) :
    tree.nextSibling i = after? i ((tree.parent i).elim [] tree.children) := by
  rw [nextSibling]
  cases tree.parent i <;> rfl

theorem previousSibling_eq (i : Fin tree.size) :
    tree.previousSibling i = before? i ((tree.parent i).elim [] tree.children) := by
  rw [previousSibling]
  cases tree.parent i <;> rfl

/-- A single move along the links finds a node at each position that it reads. -/
theorem follow_links (move : Move) (i : Fin tree.size) :
    Links.follow tree.nodes move i = .ok ((tree.follow move i).map Fin.val) := by
  have distinct : ∀ x y : Fin tree.size, x.val = y.val → x = y := fun _ _ => Fin.ext
  cases move with
  | child position =>
    rw [Links.follow, read_eq_node, follow, ← List.getElem?_map, children_map_val]
    rfl
  | go direction =>
    cases direction with
    | up =>
      rw [Links.follow, read_eq_node]
      exact congrArg Except.ok (tree.parent_map_val i).symm
    | next =>
      rw [Links.follow, siblings_eq]
      simp only [bind, Except.bind, pure, Except.pure, after?_map distinct, follow, Tree.move,
        nextSibling_eq]
    | previous =>
      rw [Links.follow, siblings_eq]
      simp only [bind, Except.bind, pure, Except.pure, before?_map distinct, follow, Tree.move,
        previousSibling_eq]

/-- Moves along the links find a node at each position that they read, however many there are. -/
theorem trail_links (moves : List Move) (i : Fin tree.size) :
    Links.trail tree.nodes moves i = .ok ((tree.trail moves i).map Fin.val) := by
  induction moves generalizing i with
  | nil =>
    rw [Links.trail, read_eq_node]
    rfl
  | cons move rest ih =>
    rw [Links.trail, follow_links, trail]
    cases tree.follow move i with
    | none => rfl
    | some j => exact ih j

theorem trail_append (first rest : List Move) (i : Fin tree.size) :
    tree.trail (first ++ rest) i = (tree.trail first i).bind (tree.trail rest) := by
  induction first generalizing i with
  | nil => rfl
  | cons move first ih =>
    rw [List.cons_append, trail, trail, Option.bind_assoc]
    exact congrArg ((tree.follow move i).bind ·) (funext ih)

/-! ### Parents and children -/

theorem node_root_parent : (tree.node tree.root).parent = none := by
  obtain ⟨n, here, none⟩ := tree.wellFormed.root
  rw [show tree.nodes[0]? = some (tree.node tree.root) from tree.getElem?_val tree.root,
    Option.some.injEq] at here
  rw [here, none]

@[simp] theorem parent_root : tree.parent tree.root = none := by
  simp [parent, node_root_parent]

/-- A node is listed by its parent and by no other node. -/
theorem mem_children_iff_parent {n c : Fin tree.size} :
    c ∈ tree.children n ↔ tree.parent c = some n := by
  constructor
  · intro listed
    obtain ⟨m, here, up⟩ := tree.wellFormed.child (tree.getElem?_val n) (mem_children_iff.1 listed)
    rw [tree.getElem?_val, Option.some.injEq] at here
    rw [parent_eq_some_iff, here, up]
  · intro up
    have ne : c.val ≠ 0 := by
      intro first
      rw [show c = tree.root from Fin.ext first, parent_root] at up
      cases up
    obtain ⟨p, m, up', here, listed⟩ := tree.wellFormed.parent (tree.getElem?_val c) ne
    rw [parent_eq_some_iff, up', Option.some.injEq] at up
    rw [up, tree.getElem?_val, Option.some.injEq] at here
    rw [mem_children_iff, here]
    exact listed

theorem parent_eq_none_iff {i : Fin tree.size} : tree.parent i = none ↔ i = tree.root := by
  constructor
  · intro none
    by_contra ne
    obtain ⟨p, m, up, -⟩ := tree.wellFormed.parent (tree.getElem?_val i) fun first => ne (Fin.ext first)
    rw [← parent_map_val, none] at up
    cases up
  · rintro rfl
    exact parent_root

/-- Siblings have one parent. -/
theorem parent_of_sibling {i j : Fin tree.size}
    (h : tree.nextSibling i = some j ∨ tree.previousSibling i = some j) :
    ∃ p, tree.parent i = some p ∧ tree.parent j = some p := by
  cases up : tree.parent i with
  | none => simp [nextSibling_eq, previousSibling_eq, up, after?, before?] at h
  | some p =>
    rw [nextSibling_eq, previousSibling_eq, up, Option.elim_some] at h
    refine ⟨p, rfl, mem_children_iff_parent.1 ?_⟩
    rcases h with next | previous
    · exact (mem_of_after? next).2
    · exact (mem_of_before? previous).1

/-! ### Ancestors -/

theorem climb_add (k l : Nat) (i : Fin tree.size) :
    tree.climb (k + l) i = (tree.climb k i).bind (tree.climb l) := by
  induction k generalizing i with
  | zero => rw [Nat.zero_add]; rfl
  | succ k ih =>
    rw [Nat.succ_add, climb, climb, Option.bind_assoc]
    exact congrArg ((tree.parent i).bind ·) (funext ih)

/-- Who climbs far has come past every lower height. -/
theorem exists_climb_of_le {k l : Nat} {i j : Fin tree.size} (le : k ≤ l)
    (high : tree.climb l i = some j) :
    ∃ c, tree.climb k i = some c ∧ tree.climb (l - k) c = some j := by
  obtain ⟨d, rfl⟩ := Nat.exists_eq_add_of_le le
  rw [Nat.add_sub_cancel_left]
  exact Option.bind_eq_some_iff.1 (climb_add k d i ▸ high)

theorem rooted_root : tree.Rooted tree.root := ⟨0, rfl⟩

/-- A node and its parent have the root among their ancestors or have it not together. -/
theorem rooted_iff_of_parent {i p : Fin tree.size} (up : tree.parent i = some p) :
    tree.Rooted i ↔ tree.Rooted p := by
  constructor
  · rintro ⟨k, top⟩
    cases k with
    | zero =>
      rw [climb, Option.some.injEq] at top
      rw [top, parent_root] at up
      cases up
    | succ k =>
      rw [climb, up] at top
      exact ⟨k, top⟩
  · rintro ⟨k, top⟩
    exact ⟨k + 1, by rw [climb, up]; exact top⟩

/-- An ancestor of a node below the root is such a node too. -/
theorem Rooted.climb {i j : Fin tree.size} (rooted : tree.Rooted i) {k : Nat}
    (h : tree.climb k i = some j) : tree.Rooted j := by
  induction k generalizing i with
  | zero =>
    rw [Tree.climb, Option.some.injEq] at h
    exact h ▸ rooted
  | succ k ih =>
    obtain ⟨p, up, above⟩ := Option.bind_eq_some_iff.1 h
    exact ih ((rooted_iff_of_parent up).1 rooted) above

/-- Each move keeps the root among the ancestors. -/
theorem Rooted.follow {i j : Fin tree.size} (rooted : tree.Rooted i) {move : Move}
    (h : tree.follow move i = some j) : tree.Rooted j := by
  have sibling : ∀ p, tree.parent i = some p → tree.parent j = some p → tree.Rooted j :=
    fun p up up' => (rooted_iff_of_parent up').2 ((rooted_iff_of_parent up).1 rooted)
  cases move with
  | child position =>
    have listed := mem_children_iff_parent.1 (List.mem_of_getElem? h)
    exact (rooted_iff_of_parent listed).2 rooted
  | go direction =>
    cases direction with
    | up => exact (rooted_iff_of_parent h).1 rooted
    | next =>
      obtain ⟨p, up, up'⟩ := parent_of_sibling (.inl h)
      exact sibling p up up'
    | previous =>
      obtain ⟨p, up, up'⟩ := parent_of_sibling (.inr h)
      exact sibling p up up'

/-- So does any sequence of moves. -/
theorem Rooted.trail {moves : List Move} {i j : Fin tree.size} (rooted : tree.Rooted i)
    (h : tree.trail moves i = some j) : tree.Rooted j := by
  induction moves generalizing i with
  | nil =>
    rw [Tree.trail, Option.some.injEq] at h
    exact h ▸ rooted
  | cons move rest ih =>
    obtain ⟨between, first, later⟩ := Option.bind_eq_some_iff.1 h
    exact ih (rooted.follow first) later

/-- The root is met once on the way up, since it has no parent. -/
theorem climb_root_unique {i : Fin tree.size} {k l : Nat} (hk : tree.climb k i = some tree.root)
    (hl : tree.climb l i = some tree.root) : k = l := by
  have not_later : ∀ {k l}, tree.climb k i = some tree.root → tree.climb l i = some tree.root →
      ¬ k < l := by
    intro k l hk hl lt
    obtain ⟨d, rfl⟩ := Nat.exists_eq_add_of_lt lt
    rw [Nat.add_assoc, climb_add, hk, Option.bind_some, climb, parent_root] at hl
    cases hl
  have := not_later hk hl
  have := not_later hl hk
  omega

/-- A node below the root is on no cycle. -/
theorem Rooted.climb_ne {i : Fin tree.size} (rooted : tree.Rooted i) (k : Nat) :
    tree.climb (k + 1) i ≠ some i := by
  intro cycle
  obtain ⟨l, top⟩ := rooted
  have again : tree.climb (k + 1 + l) i = some tree.root := by
    rw [climb_add, cycle, Option.bind_some, top]
  have := climb_root_unique top again
  omega

/-- A node from which one can climb as often as there are nodes lies below a cycle or on it. -/
theorem exists_climb_eq_self {i j : Fin tree.size} (high : tree.climb tree.size i = some j) :
    ∃ l k c, tree.climb l i = some c ∧ tree.climb (k + 1) c = some c := by
  have passed : ∀ k : Fin (tree.size + 1), ∃ c, tree.climb k i = some c := by
    intro k
    obtain ⟨c, below, -⟩ := exists_climb_of_le (Nat.le_of_lt_succ k.isLt) high
    exact ⟨c, below⟩
  choose place at_place using passed
  -- There are more heights up to the size than nodes, so two of them end at one node.
  have repeated : ∃ a b, a < b ∧ place a = place b := by
    obtain ⟨a, b, ne, same⟩ := Fintype.exists_ne_map_eq_of_card_lt place (by simp)
    rcases Nat.lt_or_gt_of_ne (Fin.val_ne_of_ne ne) with lt | gt
    · exact ⟨a, b, lt, same⟩
    · exact ⟨b, a, gt, same.symm⟩
  obtain ⟨a, b, lt, same⟩ := repeated
  obtain ⟨d, eq⟩ := Nat.exists_eq_add_of_lt lt
  refine ⟨a, d, place a, at_place a, ?_⟩
  have further := at_place b
  rw [eq, Nat.add_assoc, climb_add, at_place a, Option.bind_some, ← same] at further
  exact further

/-- The way from a node up to the root is shorter than the number of nodes. -/
theorem Rooted.exists_lt {i : Fin tree.size} (rooted : tree.Rooted i) :
    ∃ k < tree.size, tree.climb k i = some tree.root := by
  have ⟨k, top⟩ := rooted
  refine ⟨k, Nat.lt_of_not_le fun long => ?_, top⟩
  obtain ⟨j, high, -⟩ := exists_climb_of_le long top
  obtain ⟨l, d, c, below, cycle⟩ := exists_climb_eq_self high
  exact (rooted.climb below).climb_ne d cycle

/-! ### Walks -/

theorem mem_children_of_mem_select {range : ChildRange} {name : Option String}
    {i c : Fin tree.size} (h : c ∈ range.select (tree.childrenNamed i name)) :
    c ∈ tree.children i := by
  have named := List.mem_of_mem_take (List.mem_of_mem_drop h)
  cases name with
  | none => exact named
  | some name => exact (List.mem_filter.1 named).1

/-- A path operation leads to nodes that at most one move leads to. -/
theorem exists_trail_of_mem_outcomes {op : PathOp} {p q : Point tree}
    (h : q ∈ op.outcomes tree p) : ∃ moves, tree.trail moves p.node = some q.node := by
  cases op with
  | down range name =>
    obtain ⟨c, selected, rfl⟩ := List.mem_map.1 h
    obtain ⟨position, here⟩ := List.mem_iff_getElem?.1 (mem_children_of_mem_select selected)
    exact ⟨[.child position], by rw [trail, follow, here]; rfl⟩
  | move direction =>
    obtain ⟨i, moved, rfl⟩ := List.mem_map.1 h
    refine ⟨[.go direction], ?_⟩
    rw [trail, follow, Option.mem_toList.1 moved]
    rfl
  | test comparison literal =>
    have same : q = p := by
      rw [PathOp.outcomes] at h
      split at h
      · exact List.mem_singleton.1 h
      · cases h
    exact ⟨[], by rw [same]; rfl⟩
  | words range =>
    obtain ⟨v, -, rfl⟩ := List.mem_map.1 h
    exact ⟨[], rfl⟩
  | full =>
    rw [List.mem_singleton.1 h]
    exact ⟨[], rfl⟩
  | fixed value =>
    rw [List.mem_singleton.1 h]
    exact ⟨[], rfl⟩

/-- Of the steps only those of the path move. -/
theorem exists_trail_of_mem_successors {step : Step} {s t : State tree}
    (h : t ∈ step.successors s) : ∃ moves, tree.trail moves s.point.node = some t.point.node := by
  cases step with
  | path op =>
    obtain ⟨q, reached, rfl⟩ := List.mem_map.1 h
    exact exists_trail_of_mem_outcomes reached
  | isNull =>
    rw [List.mem_singleton.1 h]
    exact ⟨[], rfl⟩
  | cleanVersion policy =>
    obtain ⟨v, -, rfl⟩ := List.mem_map.1 h
    exact ⟨[], rfl⟩
  | pushDefault value =>
    rw [List.mem_singleton.1 h]
    exact ⟨[], rfl⟩
  | lookup name table withDefault =>
    cases withDefault <;> obtain ⟨v, -, rfl⟩ := List.mem_map.1 h <;> exact ⟨[], rfl⟩

/-- A walk visits only nodes that some moves from its first node lead to. -/
theorem exists_trail_of_enters {plan : Plan} {index position : Nat} {start s : State tree}
    (h : plan.Enters tree index start position s) :
    ∃ moves, tree.trail moves start.point.node = some s.point.node := by
  induction h with
  | start => exact ⟨[], rfl⟩
  | next _ _ mem ih =>
    obtain ⟨first, to_s⟩ := ih
    obtain ⟨rest, to_t⟩ := exists_trail_of_mem_successors (mem_of_mem_tried mem)
    exact ⟨first ++ rest, by rw [trail_append, to_s, Option.bind_some, to_t]⟩

/-- In an array that the check accepts, moves along the links find a node at each position that
they read, and lead where the moves of the tree lead. Children and parents are linked both ways,
only the root has no parent, and siblings have one parent. All that is reached from the root, in
particular by a walk, comes back to it in fewer steps than there are nodes, and is on no cycle. -/
theorem navigation_of_accepted {nodes : Array Node} {tree : Tree}
    (accepted : ofNodes nodes = .ok tree) :
    tree.nodes = nodes ∧
      (∀ (moves : List Move) (i : Fin tree.size),
        Links.trail nodes moves i = .ok ((tree.trail moves i).map Fin.val)) ∧
      (∀ n c, c ∈ tree.children n ↔ tree.parent c = some n) ∧
      (∀ i, tree.parent i = none ↔ i = tree.root) ∧
      (∀ i j, tree.nextSibling i = some j ∨ tree.previousSibling i = some j →
        ∃ p, tree.parent i = some p ∧ tree.parent j = some p) ∧
      (∀ moves i, tree.trail moves tree.root = some i →
        (∃ k < tree.size, tree.climb k i = some tree.root) ∧
          ∀ k, tree.climb (k + 1) i ≠ some i) ∧
      ∀ (plan : Plan) (index position : Nat) (start s : State tree),
        plan.Enters tree index start position s →
          (∃ moves, tree.trail moves start.point.node = some s.point.node) ∧
          (start.point.node = tree.root →
            ∃ k < tree.size, tree.climb k s.point.node = some tree.root) := by
  have same : tree.nodes = nodes := nodes_of_ofNodes accepted
  refine ⟨same, ?_, fun n c => mem_children_iff_parent, fun i => parent_eq_none_iff,
    fun i j => parent_of_sibling, ?_, ?_⟩
  · intro moves i
    rw [← same]
    exact trail_links moves i
  · intro moves i reached
    have rooted := rooted_root.trail reached
    exact ⟨rooted.exists_lt, rooted.climb_ne⟩
  · intro plan index position start s enters
    obtain ⟨moves, reached⟩ := exists_trail_of_enters enters
    refine ⟨⟨moves, reached⟩, fun top => ?_⟩
    rw [top] at reached
    exact (rooted_root.trail reached).exists_lt

theorem navigation_of_accepted_loops :
    let nodes : Array Node := #[⟨"a", "a", none, [2, 1, 2]⟩, ⟨"b", "b", some 0, []⟩,
      ⟨"c", "c", some 0, []⟩, ⟨"d", "d", some 4, [4]⟩, ⟨"e", "e", some 3, [3]⟩]
    ∃ tree : Tree, ofNodes nodes = .ok tree ∧
      Links.trail nodes [.child 2, .go .next, .go .next, .go .up] 0 = .ok (some 0) ∧
      Links.trail nodes [.go .up, .child 0, .go .next] 3 = .ok none ∧
      ∃ i j, tree.trail [.child 0, .go .next] tree.root = some i ∧
        (∃ k < tree.size, tree.climb k i = some tree.root) ∧
        (∃ k, tree.climb (k + 1) j = some j) ∧ ∀ moves, tree.trail moves tree.root ≠ some j := by
  intro nodes
  let tree : Tree := ⟨nodes, fault?_eq_none_iff.1 (by decide)⟩
  have accepted : ofNodes nodes = .ok tree := ofNodes_nodes tree
  obtain ⟨-, links, -, -, -, rooted, -⟩ := navigation_of_accepted accepted
  have cycle : tree.climb 2 ⟨3, by decide⟩ = some ⟨3, by decide⟩ := by decide
  have reached : tree.trail [.child 0, .go .next] tree.root = some ⟨1, by decide⟩ := by decide
  refine ⟨tree, accepted, ?_, ?_, ⟨1, by decide⟩, ⟨3, by decide⟩, reached, (rooted _ _ reached).1,
    ⟨1, cycle⟩, fun moves there => (rooted _ _ there).2 1 cycle⟩
  · exact (links _ tree.root).trans (by decide)
  · exact (links _ ⟨3, by decide⟩).trans (by decide)

end Tree

end TreePattern
