import TreePattern.Error
import TreePattern.Tree.Basic
/-!
Checking the links of an array of nodes. The check accepts the well-formed arrays and blames the
first fault of any other: the root comes first, then the nodes in order, and of each node its
children before its parent.
-/
namespace TreePattern

/-- A node that is there and names `parent` as its parent. -/
def linksUp (nodes : Array Node) (parent child : Nat) : Bool :=
  nodes[child]?.any fun n => n.parent = some parent

/-- A node whose parent is there and lists it. -/
def linksDown (nodes : Array Node) (i : Nat) (n : Node) : Bool :=
  n.parent.any fun p => nodes[p]?.any fun m => i ∈ m.children

def nodeFault? (nodes : Array Node) (i : Nat) (n : Node) : Option TreeFault :=
  match n.children.find? fun c => !linksUp nodes i c with
  | some c => some (.danglingChild i c)
  | none => if i = 0 ∨ linksDown nodes i n then none else some (.unlinked i)

def fault? (nodes : Array Node) : Option TreeFault :=
  match nodes[0]? with
  | none => some .noRoot
  | some root =>
    if root.parent.isSome then some .rootHasParent
    else nodes.toList.zipIdx.findSome? fun p => nodeFault? nodes p.2 p.1

theorem nodeFault?_eq_none_iff {nodes : Array Node} {i : Nat} {n : Node} :
    nodeFault? nodes i n = none ↔
      (∀ c ∈ n.children, linksUp nodes i c) ∧ (i = 0 ∨ linksDown nodes i n) := by
  unfold nodeFault?
  split
  · next c h =>
    have := List.find?_some h
    have := List.mem_of_find?_eq_some h
    grind
  · next h =>
    have := List.find?_eq_none.1 h
    grind

theorem linksUp_iff {nodes : Array Node} {i c : Nat} :
    linksUp nodes i c ↔ ∃ m, nodes[c]? = some m ∧ m.parent = some i := by
  simp [linksUp, Option.any_eq_true]

theorem linksDown_iff {nodes : Array Node} {i : Nat} {n : Node} :
    linksDown nodes i n ↔ ∃ p m, n.parent = some p ∧ nodes[p]? = some m ∧ i ∈ m.children := by
  simp [linksDown, Option.any_eq_true]

/-- The check passes just the well-formed arrays. -/
theorem fault?_eq_none_iff {nodes : Array Node} : fault? nodes = none ↔ WellFormed nodes := by
  have each : nodes.toList.zipIdx.findSome? (fun p => nodeFault? nodes p.2 p.1) = none ↔
      ∀ i n, nodes[i]? = some n → nodeFault? nodes i n = none := by
    simp only [List.findSome?_eq_none_iff, Prod.forall, List.mem_zipIdx_iff_getElem?,
      Array.getElem?_toList]
    exact forall_comm
  unfold fault?
  constructor
  · intro h
    split at h
    · simp at h
    · next root hroot =>
      split at h
      · simp at h
      · next hnone =>
        have checked := each.1 h
        simp only [nodeFault?_eq_none_iff, linksUp_iff, linksDown_iff] at checked
        refine ⟨⟨root, hroot, by simpa using hnone⟩, fun hi hc => (checked _ _ hi).1 _ hc,
          fun hi h0 => (checked _ _ hi).2.resolve_left h0⟩
  · intro wf
    obtain ⟨root, hroot, hnone⟩ := wf.root
    simp only [hroot, hnone, Option.isSome_none, Bool.false_eq_true, if_false, each,
      nodeFault?_eq_none_iff, linksUp_iff, linksDown_iff]
    intro i n hi
    exact ⟨fun c hc => wf.child hi hc, (Decidable.em (i = 0)).imp id fun h0 => wf.parent hi h0⟩

def Tree.ofNodes (nodes : Array Node) : Except TreeFault Tree :=
  match h : fault? nodes with
  | none => .ok ⟨nodes, fault?_eq_none_iff.1 h⟩
  | some fault => .error fault

@[simp] theorem Tree.ofNodes_nodes (tree : Tree) : ofNodes tree.nodes = .ok tree := by
  have h := fault?_eq_none_iff.2 tree.wellFormed
  unfold ofNodes
  split
  · rfl
  · next fault hf => simp [h] at hf

theorem Tree.nodes_of_ofNodes {nodes : Array Node} {tree : Tree} (h : ofNodes nodes = .ok tree) :
    tree.nodes = nodes := by
  unfold ofNodes at h
  split at h
  · rw [← Except.ok.inj h]
  · cases h

end TreePattern
