import TreePattern.Proofs.ReadBack
/-!
What the check of an array of nodes accepts and which fault it blames, in terms of the links alone.
It accepts an array that has a root without a parent and whose links are mirrored. Of the faults of
any other array it blames the first one: those of the root come first, then those of the first node
with a fault, and of these a child that is not linked before the parent.
-/
namespace TreePattern

/-- A child that is there and names the node as its parent. -/
def ChildLinked (nodes : Array Node) (i child : Nat) : Prop :=
  ∃ m, nodes[child]? = some m ∧ m.parent = some i

/-- A node whose parent is there and lists it. -/
def ParentLinked (nodes : Array Node) (i : Nat) (n : Node) : Prop :=
  ∃ p m, n.parent = some p ∧ nodes[p]? = some m ∧ i ∈ m.children

/-- All links of the node at a position are mirrored. The root needs no parent. -/
def Linked (nodes : Array Node) (i : Nat) (n : Node) : Prop :=
  (∀ c ∈ n.children, ChildLinked nodes i c) ∧ (i ≠ 0 → ParentLinked nodes i n)

/-- A root without a parent, and a node at some position before which all links are mirrored. -/
structure SoundUpTo (nodes : Array Node) (i : Nat) (n : Node) : Prop where
  root : ∃ root, nodes[0]? = some root ∧ root.parent = none
  here : nodes[i]? = some n
  before : ∀ j m, j < i → nodes[j]? = some m → Linked nodes j m

/-- The first fault of an array, and the words for it. -/
inductive FirstFault (nodes : Array Node) : TreeFault → String → Prop where
  | noRoot : nodes = #[] → FirstFault nodes .noRoot "no root node"
  | rootHasParent {root : Node} : nodes[0]? = some root → root.parent ≠ none →
      FirstFault nodes .rootHasParent "root node has a parent"
  | danglingChild {i c : Nat} {n : Node} {front rest : List Nat} : SoundUpTo nodes i n →
      n.children = front ++ c :: rest → (∀ d ∈ front, ChildLinked nodes i d) →
      ¬ ChildLinked nodes i c → FirstFault nodes (.danglingChild i c)
        ("node " ++ Text.ofNat i ++ " has a dangling child " ++ Text.ofNat c)
  | unlinked {i : Nat} {n : Node} : SoundUpTo nodes i n →
      (∀ c ∈ n.children, ChildLinked nodes i c) → i ≠ 0 → ¬ ParentLinked nodes i n →
      FirstFault nodes (.unlinked i) ("node " ++ Text.ofNat i ++ " is not linked to a parent")

/-- A search in order finds what the first member gives for which there is anything to find. -/
theorem findSome?_zipIdx_eq_some_iff {α β : Type} {f : Nat → α → Option β} {xs : List α}
    {start : Nat} {b : β} : (xs.zipIdx start).findSome? (fun x => f x.2 x.1) = some b ↔
      ∃ i x, xs[i]? = some x ∧ f (start + i) x = some b ∧
        ∀ j y, j < i → xs[j]? = some y → f (start + j) y = none := by
  induction xs generalizing start with
  | nil => simp
  | cons x xs ih =>
    rw [List.zipIdx_cons, List.findSome?_cons]
    cases first : f start x with
    | some a =>
      constructor
      · intro same
        refine ⟨0, x, rfl, first.trans same, fun j _ before => ?_⟩
        omega
      · rintro ⟨i, y, here, found, before⟩
        cases i with
        | zero =>
          obtain rfl := Option.some.inj here
          exact first.symm.trans found
        | succ i =>
          have earlier : f start x = none := before 0 x (Nat.succ_pos i) rfl
          rw [first] at earlier
          cases earlier
    | none =>
      simp only [ih, Nat.add_right_comm start 1]
      constructor
      · rintro ⟨i, y, here, found, before⟩
        refine ⟨i + 1, y, here, found, fun j z lt at_j => ?_⟩
        cases j with
        | zero =>
          obtain rfl := Option.some.inj at_j
          exact first
        | succ j => exact before j z (Nat.lt_of_succ_lt_succ lt) at_j
      · rintro ⟨i, y, here, found, before⟩
        cases i with
        | zero =>
          obtain rfl := Option.some.inj here
          have missed : f start x = some b := found
          rw [first] at missed
          cases missed
        | succ i =>
          exact ⟨i, y, here, found, fun j z lt at_j =>
            before (j + 1) z (Nat.succ_lt_succ lt) at_j⟩

section Node

variable {nodes : Array Node} {i : Nat} {n : Node}

theorem nodeFault?_eq_none_iff_linked : nodeFault? nodes i n = none ↔ Linked nodes i n := by
  simp only [nodeFault?_eq_none_iff, linksUp_iff, linksDown_iff]
  exact and_congr_right' Decidable.or_iff_not_imp_left

/-- The fault of a node is its first child that is not linked, or else its parent. -/
theorem nodeFault?_eq_some_iff {fault : TreeFault} : nodeFault? nodes i n = some fault ↔
    (∃ c front rest, fault = .danglingChild i c ∧ n.children = front ++ c :: rest ∧
      (∀ d ∈ front, ChildLinked nodes i d) ∧ ¬ ChildLinked nodes i c) ∨
    fault = .unlinked i ∧ (∀ c ∈ n.children, ChildLinked nodes i c) ∧ i ≠ 0 ∧
      ¬ ParentLinked nodes i n := by
  have up : ∀ c, linksUp nodes i c ↔ ChildLinked nodes i c := fun c => linksUp_iff
  have down : linksDown nodes i n ↔ ParentLinked nodes i n := linksDown_iff
  rw [nodeFault?]
  cases dangling : n.children.find? fun c => !linksUp nodes i c with
  | some c =>
    obtain ⟨unlinked, front, rest, split, before⟩ := List.find?_eq_some_iff_append.1 dangling
    simp only [Bool.not_not, Bool.not_eq_true', ← Bool.not_eq_true, up] at before unlinked
    constructor
    · intro same
      exact .inl ⟨c, front, rest, (Option.some.inj same).symm, split, before, unlinked⟩
    · rintro (⟨c', front', rest', rfl, split', before', unlinked'⟩ | ⟨-, all, -⟩)
      · have found : n.children.find? (fun c => !linksUp nodes i c) = some c' := by
          refine List.find?_eq_some_iff_append.2 ⟨?_, front', rest', split', fun d mem => ?_⟩
          · simpa [← up] using unlinked'
          · simpa [← up] using before' d mem
        rw [dangling, Option.some.injEq] at found
        rw [found]
      · exact absurd (all c (split ▸ List.mem_append_right front List.mem_cons_self)) unlinked
  | none =>
    have all : ∀ c ∈ n.children, ChildLinked nodes i c := by
      simpa [up] using dangling
    constructor
    · intro same
      dsimp only at same
      split at same
      · cases same
      · next orphan =>
        rw [not_or, down] at orphan
        exact .inr ⟨(Option.some.inj same).symm, all, orphan⟩
    · rintro (⟨c, front, rest, -, split, -, unlinked⟩ | ⟨rfl, -, orphan⟩)
      · exact absurd (all c (split ▸ List.mem_append_right front List.mem_cons_self)) unlinked
      · rw [← down, ← not_or] at orphan
        exact if_neg orphan

end Node

variable {nodes : Array Node}

theorem fault?_of_root {root : Node} (here : nodes[0]? = some root) (none : root.parent = none)
    {fault : TreeFault} : fault? nodes = some fault ↔
      ∃ i n, SoundUpTo nodes i n ∧ nodeFault? nodes i n = some fault := by
  rw [fault?, here]
  simp only [none, Option.isSome_none, Bool.false_eq_true, if_false,
    findSome?_zipIdx_eq_some_iff, Array.getElem?_toList, Nat.zero_add,
    nodeFault?_eq_none_iff_linked]
  constructor
  · rintro ⟨i, n, at_i, found, before⟩
    exact ⟨i, n, ⟨⟨root, here, none⟩, at_i, before⟩, found⟩
  · rintro ⟨i, n, upTo, found⟩
    exact ⟨i, n, upTo.here, found, upTo.before⟩

theorem SoundUpTo.fault?_eq {i : Nat} {n : Node} {fault : TreeFault} (upTo : SoundUpTo nodes i n)
    (found : nodeFault? nodes i n = some fault) : fault? nodes = some fault := by
  obtain ⟨root, here, none⟩ := upTo.root
  exact (fault?_of_root here none).2 ⟨i, n, upTo, found⟩

/-- The fault that the check blames is the first one, and its message says which. -/
theorem fault?_eq_some_iff {fault : TreeFault} {text : String} :
    fault? nodes = some fault ∧ fault.message = text ↔ FirstFault nodes fault text := by
  constructor
  · rintro ⟨blamed, rfl⟩
    cases here : nodes[0]? with
    | none =>
      have empty : nodes = #[] := by simpa using here
      rw [fault?, here] at blamed
      obtain rfl := Option.some.inj blamed
      exact .noRoot empty
    | some root =>
      cases up : root.parent with
      | some p =>
        rw [fault?, here] at blamed
        simp only [up, Option.isSome_some, if_true, Option.some.injEq] at blamed
        obtain rfl := blamed
        exact .rootHasParent here (by simp [up])
      | none =>
        obtain ⟨i, n, upTo, found⟩ := (fault?_of_root here up).1 blamed
        rcases nodeFault?_eq_some_iff.1 found with
          ⟨c, front, rest, rfl, split, before, dangling⟩ | ⟨rfl, all, later, orphan⟩
        · exact .danglingChild upTo split before dangling
        · exact .unlinked upTo all later orphan
  · intro first
    cases first with
    | noRoot empty => exact ⟨by rw [empty]; rfl, rfl⟩
    | rootHasParent here up => exact ⟨by simp [fault?, here, Option.isSome_iff_ne_none, up], rfl⟩
    | danglingChild upTo split before dangling =>
      exact ⟨upTo.fault?_eq (nodeFault?_eq_some_iff.2
        (.inl ⟨_, _, _, rfl, split, before, dangling⟩)), rfl⟩
    | unlinked upTo all later orphan =>
      exact ⟨upTo.fault?_eq (nodeFault?_eq_some_iff.2 (.inr ⟨rfl, all, later, orphan⟩)), rfl⟩

namespace Tree

theorem ofNodes_eq_error_iff {fault : TreeFault} :
    ofNodes nodes = .error fault ↔ fault? nodes = some fault := by
  unfold ofNodes
  split
  · next sound => simp [sound]
  · next found => simp [found]

theorem exists_ofNodes_iff :
    (∃ tree, ofNodes nodes = .ok tree ∧ tree.nodes = nodes) ↔ WellFormed nodes := by
  constructor
  · rintro ⟨tree, -, rfl⟩
    exact tree.wellFormed
  · intro wellFormed
    exact ⟨⟨nodes, wellFormed⟩, ofNodes_nodes ⟨nodes, wellFormed⟩, rfl⟩

/-- An array of nodes is accepted just if it has a root, the root has no parent, each listed child is
there and names the node that lists it as its parent, and each other node has a parent that is there
and lists it. Otherwise the first fault is blamed. Written as JSON, the array is read with the same
result. -/
theorem ofNodes_eq_error_iff_firstFault (nodes : Array Node) :
    ((∃ tree, ofNodes nodes = .ok tree ∧ tree.nodes = nodes) ↔
      nodes ≠ #[] ∧ (∀ root, nodes[0]? = some root → root.parent = none) ∧
        (∀ i n, nodes[i]? = some n → ∀ c ∈ n.children, ChildLinked nodes i c) ∧
        ∀ i n, nodes[i]? = some n → i ≠ 0 → ParentLinked nodes i n) ∧
      (∀ fault text, ofNodes nodes = .error fault ∧ fault.message = text ↔
        FirstFault nodes fault text) ∧
      ofJson (.obj [("nodes", .arr (nodes.toList.map Node.toJson))]) =
        match ofNodes nodes with
        | .ok tree => .ok tree
        | .error fault => .error (.refused (.tree fault)) := by
  refine ⟨exists_ofNodes_iff.trans ⟨fun wf => ?_, ?_⟩, fun fault text => ?_, ?_⟩
  · obtain ⟨root, here, none⟩ := wf.root
    refine ⟨by rintro rfl; simp at here, fun other at_zero => ?_, fun i n at_i c => wf.child at_i,
      fun i n => wf.parent⟩
    rw [here, Option.some.injEq] at at_zero
    rw [← at_zero, none]
  · rintro ⟨nonempty, up, child, parent⟩
    have size_pos : 0 < nodes.size := Array.size_pos_iff.2 nonempty
    have here := Array.getElem?_eq_getElem size_pos
    exact ⟨⟨_, here, up _ here⟩, fun at_i => child _ _ at_i _, fun at_i => parent _ _ at_i⟩
  · rw [ofNodes_eq_error_iff, fault?_eq_some_iff]
  · rw [ofJson_nodes]
    cases ofNodes nodes <;> rfl

/-- The first of two dangling children is blamed, and the third node is not looked at. -/
example : fault? #[⟨"a", "a", none, [1]⟩, ⟨"b", "b", some 0, [0, 7]⟩, ⟨"c", "c", none, []⟩] =
    some (.danglingChild 1 0) := by decide

end Tree

end TreePattern
