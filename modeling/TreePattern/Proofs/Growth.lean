import TreePattern.Proofs.Genuine
/-!
What grows from a root when children are added one after another, each under the root or under a node
whose number an earlier addition has told. The numbers are told in order, the children of a node are
the numbers of the additions under it, and what has grown passes the check of its links. Siblings
stand side by side in the one list that has them.
-/
namespace TreePattern

/-- The nodes so far, unchecked, and the numbers that were told. -/
structure Growth where
  nodes : Array Node
  numbers : List Nat
  deriving DecidableEq, Repr

/-- The number of a parent, and the name and the text of a child for it. -/
abbrev Call := Nat × String × String

namespace Growth

def start (name text : String) : Growth := ⟨#[⟨name, text, none, []⟩], []⟩

/-- Adds a child with a name and a text under the node with a number, and tells the number of the
child; nothing when there is no such node. -/
def child? (g : Growth) (call : Call) : Option Growth :=
  if call.1 < g.nodes.size then
    some ⟨attach g.nodes call.1 call.2.1 call.2.2, g.numbers ++ [g.nodes.size]⟩
  else none

def run? (name text : String) (calls : List Call) : Option Growth :=
  calls.foldlM child? (start name text)

/-- Each call names the root, or a number that an earlier call has told. -/
inductive Lawful (name text : String) : List Call → Prop where
  | nil : Lawful name text []
  | concat {calls : List Call} {call : Call} :
      Lawful name text calls →
      (call.1 = 0 ∨ ∃ g, run? name text calls = some g ∧ call.1 ∈ g.numbers) →
      Lawful name text (calls ++ [call])

/-- The numbers of the children that are added under a node, in the order of the calls. -/
def numbersUnder (calls : List Call) (i : Nat) : List Nat :=
  ((calls.zipIdx 1).filter fun c => c.1.1 = i).map Prod.snd

/-- The node that a call adds as the `i`th one. -/
def planted (calls : List Call) (i : Nat) (call : Call) : Node :=
  ⟨call.2.1, call.2.2, some call.1, numbersUnder calls i⟩

/-- What the calls leave behind, in one piece. -/
def grown (name text : String) (calls : List Call) : Growth where
  nodes := (⟨name, text, none, numbersUnder calls 0⟩ ::
    (calls.zipIdx 1).map fun c => planted calls c.2 c.1).toArray
  numbers := List.range' 1 calls.length

section Grown

variable {name text : String} {calls : List Call} {call : Call}

theorem numbersUnder_concat (i : Nat) : numbersUnder (calls ++ [call]) i =
    numbersUnder calls i ++ if call.1 = i then [calls.length + 1] else [] := by
  rw [numbersUnder, List.zipIdx_append, List.filter_append, List.map_append, numbersUnder]
  apply congrArg
  by_cases here : call.1 = i <;> simp [here, Nat.add_comm]

theorem numbersUnder_eq_nil {i : Nat} (below : ∀ call ∈ calls, call.1 < i) :
    numbersUnder calls i = [] := by
  rw [numbersUnder, List.map_eq_nil_iff, List.filter_eq_nil_iff]
  intro c listed
  have lt := below c.1 (List.fst_mem_of_mem_zipIdx listed)
  simpa using Nat.ne_of_lt lt

@[simp] theorem size_grown : (grown name text calls).nodes.size = calls.length + 1 := by
  simp [grown]

theorem getElem?_grown_zero :
    (grown name text calls).nodes[0]? = some ⟨name, text, none, numbersUnder calls 0⟩ := rfl

theorem getElem?_grown_succ (k : Nat) :
    (grown name text calls).nodes[k + 1]? = calls[k]?.map (planted calls (k + 1)) := by
  simp [grown, List.getElem?_zipIdx, Nat.add_comm, Function.comp_def]

/-- One call more. The node that it adds has no children yet, since all calls so far name nodes that
were there before. -/
theorem child?_grown (below : ∀ call ∈ calls, call.1 < calls.length + 1)
    (here : call.1 < calls.length + 1) :
    (grown name text calls).child? call = some (grown name text (calls ++ [call])) := by
  rw [child?, if_pos (by simpa using here), Option.some.injEq, Growth.mk.injEq]
  constructor
  · apply Array.ext_getElem?
    intro i
    rw [getElem?_attach, size_grown]
    cases i with
    | zero =>
      rw [if_neg (by omega), getElem?_grown_zero, getElem?_grown_zero, numbersUnder_concat]
      by_cases root : call.1 = 0 <;> simp [root]
    | succ k =>
      rw [getElem?_grown_succ, getElem?_grown_succ]
      by_cases last : k = calls.length
      · have none : numbersUnder calls (calls.length + 1) = [] := numbersUnder_eq_nil below
        rw [if_pos (by rw [last]), last, List.getElem?_concat_length, Option.map_some, planted,
          numbersUnder_concat, none, if_neg (by omega)]
        rfl
      · rw [if_neg (by omega)]
        by_cases old : k < calls.length
        · rw [List.getElem?_append_left old, List.getElem?_eq_getElem old]
          by_cases parent : call.1 = k + 1 <;> simp [planted, numbersUnder_concat, parent]
        · rw [List.getElem?_eq_none (by omega), List.getElem?_eq_none (by simp; omega),
            if_neg (by omega)]
          rfl
  · simp [grown, List.range'_concat, Nat.add_comm]

/-- The run: lawful calls all succeed, and leave behind what they say. -/
theorem Lawful.run?_eq (lawful : Lawful name text calls) :
    run? name text calls = some (grown name text calls) ∧
      ∀ (k : Nat) (call : Call), calls[k]? = some call → call.1 ≤ k := by
  induction lawful with
  | nil => exact ⟨rfl, by simp⟩
  | @concat calls call _ named ih =>
    obtain ⟨ran, before⟩ := ih
    have here : call.1 ≤ calls.length := by
      rcases named with root | ⟨g, same, told⟩
      · omega
      · rw [ran, Option.some.injEq] at same
        rw [← same, grown, List.mem_range'_1] at told
        omega
    have below : ∀ call ∈ calls, call.1 < calls.length + 1 := by
      intro call listed
      obtain ⟨k, lt, at_k⟩ := List.mem_iff_getElem.1 listed
      have := before k call (List.getElem?_eq_some_iff.2 ⟨lt, at_k⟩)
      omega
    constructor
    · rw [run?, List.foldlM_append]
      change (run? name text calls).bind _ = _
      rw [ran, Option.bind_some, List.foldlM_cons, child?_grown below (Nat.lt_succ_of_le here)]
      rfl
    · intro k other at_k
      rcases Nat.lt_or_ge k calls.length with old | new
      · exact before k other (by rwa [List.getElem?_append_left old] at at_k)
      · have last : k = calls.length := by
          have := (List.getElem?_eq_some_iff.1 at_k).1
          simp at this
          omega
        rw [last, List.getElem?_concat_length, Option.some.injEq] at at_k
        rw [← at_k, last]
        exact here

/-- What has grown unchecked is what has grown as a tree. -/
theorem map_nodes_run? : (run? name text calls).map Growth.nodes =
    (Tree.build? name text calls).map Tree.nodes := by
  suffices every : ∀ (g : Growth) (tree : Tree), g.nodes = tree.nodes →
      (calls.foldlM child? g).map Growth.nodes =
        (calls.foldlM (fun (tree : Tree) call => (tree.node? call.1).map fun parent =>
          tree.addChild parent call.2.1 call.2.2) tree).map Tree.nodes from
    every (start name text) (Tree.leaf name text) rfl
  induction calls with
  | nil =>
    intro g tree same
    exact congrArg some same
  | cons call calls ih =>
    intro g tree same
    rw [List.foldlM_cons, List.foldlM_cons, child?, Tree.node?, same]
    by_cases there : call.1 < tree.size
    · rw [if_pos there, dif_pos there]
      exact ih _ _ (by simp [Tree.addChild])
    · rw [if_neg there, dif_neg there]
      rfl

end Grown

end Growth

/-! ### Siblings -/

section Neighbours

variable {α : Type} [DecidableEq α] {xs : List α} {x : α} {k : Nat}

/-- Without repetition the neighbour of a member stands at the next position. -/
theorem after?_of_getElem? (nodup : xs.Nodup) (here : xs[k]? = some x) :
    after? x xs = xs[k + 1]? := by
  induction xs generalizing k with
  | nil => cases here
  | cons y ys ih =>
    obtain ⟨new, nodup⟩ := List.nodup_cons.1 nodup
    cases k with
    | zero =>
      obtain rfl := Option.some.inj here
      rw [after?, if_pos rfl, List.head?_eq_getElem?]
      rfl
    | succ k =>
      have apart : y ≠ x := by
        rintro rfl
        exact new (List.mem_of_getElem? here)
      rw [after?, if_neg apart]
      exact ih nodup here

theorem before?_of_getElem?_zero (here : xs[0]? = some x) : before? x xs = none := by
  cases xs with
  | nil => rfl
  | cons y ys =>
    obtain rfl := Option.some.inj here
    cases ys <;> simp [before?]

theorem before?_of_getElem?_succ (nodup : xs.Nodup) (here : xs[k + 1]? = some x) :
    before? x xs = xs[k]? := by
  have inside : k < xs.length := by
    have := (List.getElem?_eq_some_iff.1 here).1
    omega
  have left := List.getElem?_eq_getElem inside
  rw [left]
  exact (after?_eq_iff_before?_eq nodup).1 ((after?_of_getElem? nodup left).trans here)

end Neighbours

namespace Tree

section Siblings

variable {tree : Tree} {i p : Fin tree.size} {k : Nat}

theorem exists_getElem?_children (not_root : i ≠ tree.root) :
    ∃ (p : Fin tree.size) (k : Nat), (tree.children p)[k]? = some i := by
  cases up : tree.parent i with
  | none => exact absurd (parent_eq_none_iff.1 up) not_root
  | some p => exact ⟨p, List.mem_iff_getElem?.1 (mem_children_iff_parent.2 up)⟩

theorem Genuine.nextSibling_of_getElem? (genuine : tree.Genuine)
    (here : (tree.children p)[k]? = some i) : tree.nextSibling i = (tree.children p)[k + 1]? := by
  rw [nextSibling_of_mem (List.mem_of_getElem? here), after?_of_getElem? (genuine.nodup p) here]

theorem previousSibling_of_getElem?_zero (here : (tree.children p)[0]? = some i) :
    tree.previousSibling i = none := by
  rw [previousSibling_of_mem (List.mem_of_getElem? here), before?_of_getElem?_zero here]

theorem Genuine.previousSibling_of_getElem?_succ (genuine : tree.Genuine)
    (here : (tree.children p)[k + 1]? = some i) :
    tree.previousSibling i = (tree.children p)[k]? := by
  rw [previousSibling_of_mem (List.mem_of_getElem? here),
    before?_of_getElem?_succ (genuine.nodup p) here]

theorem Genuine.nextSibling_eq_none_iff (genuine : tree.Genuine) :
    tree.nextSibling i = none ↔ i = tree.root ∨ ∃ p, (tree.children p).getLast? = some i := by
  constructor
  · intro none
    rw [or_iff_not_imp_left]
    intro not_root
    obtain ⟨p, k, here⟩ := exists_getElem?_children not_root
    rw [genuine.nextSibling_of_getElem? here, List.getElem?_eq_none_iff] at none
    have inside := (List.getElem?_eq_some_iff.1 here).1
    have final : (tree.children p).length - 1 = k := by omega
    exact ⟨p, by rw [List.getLast?_eq_getElem?, final, here]⟩
  · rintro (rfl | ⟨p, last⟩)
    · rw [nextSibling, parent_root]
      rfl
    · rw [List.getLast?_eq_getElem?] at last
      have inside := (List.getElem?_eq_some_iff.1 last).1
      rw [genuine.nextSibling_of_getElem? last, List.getElem?_eq_none_iff]
      omega

theorem Genuine.previousSibling_eq_none_iff (genuine : tree.Genuine) :
    tree.previousSibling i = none ↔ i = tree.root ∨ ∃ p, (tree.children p).head? = some i := by
  constructor
  · intro none
    rw [or_iff_not_imp_left]
    intro not_root
    obtain ⟨p, k, here⟩ := exists_getElem?_children not_root
    cases k with
    | zero => exact ⟨p, by rw [List.head?_eq_getElem?, here]⟩
    | succ k =>
      have inside := (List.getElem?_eq_some_iff.1 here).1
      rw [genuine.previousSibling_of_getElem?_succ here, List.getElem?_eq_none_iff] at none
      omega
  · rintro (rfl | ⟨p, first⟩)
    · rw [previousSibling, parent_root]
      rfl
    · rw [List.head?_eq_getElem?] at first
      exact previousSibling_of_getElem?_zero first

end Siblings

/-- A tree has one node for the root and one for each call, in order. The children of a node are those
that the calls add under it, and every other node than the root is listed once, by an earlier one.
Siblings stand next to each other in the list of their parent, and only its ends and the root lack
one. -/
structure Orderly (tree : Tree) (name text : String) (calls : List Call) : Prop where
  size_eq : tree.size = calls.length + 1
  root : tree.name tree.root = name ∧ tree.text tree.root = text
  added : ∀ (k : Nat) (call : Call), calls[k]? = some call → ∃ i : Fin tree.size, i.val = k + 1 ∧
    (tree.parent i).map Fin.val = some call.1 ∧ tree.name i = call.2.1 ∧ tree.text i = call.2.2
  children : ∀ i, (tree.children i).map Fin.val = Growth.numbersUnder calls i.val
  ascending : ∀ i, (tree.children i).Pairwise (· < ·)
  listed_once : ∀ i, i ≠ tree.root → ∃ p < i, tree.parent i = some p ∧
    (tree.children p).count i = 1 ∧ ∀ q, i ∈ tree.children q → q = p
  root_unlisted : ∀ p, tree.root ∉ tree.children p
  next : ∀ (p : Fin tree.size) (k : Nat) (i : Fin tree.size),
    (tree.children p)[k]? = some i → tree.nextSibling i = (tree.children p)[k + 1]?
  previous : ∀ (p : Fin tree.size) (k : Nat) (i : Fin tree.size),
    (tree.children p)[k]? = some i →
      tree.previousSibling i = if k = 0 then none else (tree.children p)[k - 1]?
  inverse : ∀ i j, tree.nextSibling i = some j ↔ tree.previousSibling j = some i
  next_none : ∀ i, tree.nextSibling i = none ↔
    i = tree.root ∨ ∃ p, (tree.children p).getLast? = some i
  previous_none : ∀ i, tree.previousSibling i = none ↔
    i = tree.root ∨ ∃ p, (tree.children p).head? = some i

section Built

variable {tree : Tree} {name text : String} {calls : List Call}

theorem node_root_of_nodes (same : tree.nodes = (Growth.grown name text calls).nodes) :
    tree.node tree.root = ⟨name, text, none, Growth.numbersUnder calls 0⟩ := by
  have here := tree.getElem?_val tree.root
  rw [same] at here
  exact (Option.some.inj here).symm

theorem node_succ_of_nodes (same : tree.nodes = (Growth.grown name text calls).nodes) {k : Nat}
    (inside : k + 1 < tree.size) :
    calls[k]?.map (Growth.planted calls (k + 1)) = some (tree.node ⟨k + 1, inside⟩) := by
  have here := tree.getElem?_val ⟨k + 1, inside⟩
  rwa [same, Growth.getElem?_grown_succ] at here

theorem children_of_nodes (same : tree.nodes = (Growth.grown name text calls).nodes)
    (i : Fin tree.size) : (tree.children i).map Fin.val = Growth.numbersUnder calls i.val := by
  rw [children_map_val]
  obtain ⟨_ | k, inside⟩ := i
  · change (tree.node tree.root).children = _
    rw [node_root_of_nodes same]
  · obtain ⟨call, -, planted⟩ := Option.map_eq_some_iff.1 (node_succ_of_nodes same inside)
    rw [← planted]
    rfl

theorem Orderly.of_nodes (same : tree.nodes = (Growth.grown name text calls).nodes)
    (grown : Grown tree.nodes) : tree.Orderly name text calls := by
  have genuine := genuine_of_grown grown
  have size_eq : tree.size = calls.length + 1 := by rw [size, same, Growth.size_grown]
  exact {
    size_eq
    root := by simp [Tree.name, Tree.text, node_root_of_nodes same]
    added := by
      intro k call at_k
      have inside : k + 1 < tree.size := by
        have := (List.getElem?_eq_some_iff.1 at_k).1
        omega
      have planted := node_succ_of_nodes same inside
      rw [at_k, Option.map_some, Option.some.injEq] at planted
      exact ⟨⟨k + 1, inside⟩, rfl, by simp [← planted, Growth.planted],
        by simp [Tree.name, ← planted, Growth.planted],
        by simp [Tree.text, ← planted, Growth.planted]⟩
    children := children_of_nodes same
    ascending := by
      intro i
      have numbers := (grown (tree.getElem?_val i)).1
      rwa [← children_map_val, List.pairwise_map] at numbers
    listed_once := by
      intro i not_root
      obtain ⟨p, k, here⟩ := exists_getElem?_children not_root
      have listed := List.mem_of_getElem? here
      have up := mem_children_iff_parent.1 listed
      refine ⟨p, (grown (tree.getElem?_val p)).2 i.val (mem_children_iff.1 listed), up,
        List.count_eq_one_of_mem (genuine.nodup p) listed, fun q listed' => ?_⟩
      rw [mem_children_iff_parent, up, Option.some.injEq] at listed'
      exact listed'.symm
    root_unlisted := by
      intro p listed
      have up := mem_children_iff_parent.1 listed
      rw [parent_root] at up
      cases up
    next := fun p k i => genuine.nextSibling_of_getElem?
    previous := by
      intro p k i here
      cases k with
      | zero => exact previousSibling_of_getElem?_zero here
      | succ k => exact genuine.previousSibling_of_getElem?_succ here
    inverse := genuine.siblings
    next_none := fun i => genuine.nextSibling_eq_none_iff
    previous_none := fun i => genuine.previousSibling_eq_none_iff }

end Built

/-- Calls that name the root or a number told before all succeed. What they leave behind, unchecked,
passes the check, and is an orderly tree; the numbers told are those from one on. -/
theorem build?_of_lawful {name text : String} {calls : List Call}
    (lawful : Growth.Lawful name text calls) :
    ∃ g tree, Growth.run? name text calls = some g ∧ build? name text calls = some tree ∧
      tree.nodes = g.nodes ∧ ofNodes g.nodes = .ok tree ∧
      g.numbers = List.range' 1 calls.length ∧ tree.Orderly name text calls := by
  have ran := lawful.run?_eq.1
  have both : (build? name text calls).map Tree.nodes =
      some (Growth.grown name text calls).nodes := by
    rw [← Growth.map_nodes_run?, ran]
    rfl
  obtain ⟨tree, built, same⟩ := Option.map_eq_some_iff.1 both
  exact ⟨_, tree, ran, built, same, same ▸ ofNodes_nodes tree, rfl,
    .of_nodes same (grown_build built)⟩

/-- The second call adds a node below the first one, the third a sibling of the first one. -/
theorem build?_of_lawful_letters :
    let calls : List Call := [(0, "b", "b"), (1, "c", "c"), (0, "d", "d")]
    Growth.Lawful "a" "a" calls ∧ ∃ tree, build? "a" "a" calls = some tree ∧
      tree.Orderly "a" "a" calls ∧ tree.nodes = #[⟨"a", "a", none, [1, 3]⟩,
        ⟨"b", "b", some 0, [2]⟩, ⟨"c", "c", some 1, []⟩, ⟨"d", "d", some 0, []⟩] := by
  intro calls
  have first : Growth.Lawful "a" "a" [(0, "b", "b")] := Growth.Lawful.nil.concat (.inl rfl)
  have second : Growth.Lawful "a" "a" [(0, "b", "b"), (1, "c", "c")] :=
    first.concat (.inr ⟨_, rfl, by decide⟩)
  have lawful : Growth.Lawful "a" "a" calls := second.concat (.inl rfl)
  obtain ⟨g, tree, ran, built, same, -, -, orderly⟩ := build?_of_lawful lawful
  refine ⟨lawful, tree, built, orderly, ?_⟩
  rw [same, ← Option.some.injEq, ← Option.map_some, ← ran]
  decide

end Tree

end TreePattern
