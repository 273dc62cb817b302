/-!
Trees of named nodes that carry text. A tree is an array of nodes linked by their positions in
it, with the root first. The links are mirrored: a child knows its parent, and a parent lists its
children. Every move from a node of a tree therefore ends at a node of the same tree.
-/
namespace TreePattern

structure Node where
  name : String
  text : String
  parent : Option Nat
  children : List Nat
  deriving DecidableEq, Repr

/-- The first node is a root, every listed child names the node that lists it as its parent, and
every node but the first is listed by its parent. -/
structure WellFormed (nodes : Array Node) : Prop where
  root : ∃ n, nodes[0]? = some n ∧ n.parent = none
  child : ∀ {i c : Nat} {n : Node}, nodes[i]? = some n → c ∈ n.children →
    ∃ m, nodes[c]? = some m ∧ m.parent = some i
  parent : ∀ {i : Nat} {n : Node}, nodes[i]? = some n → i ≠ 0 →
    ∃ p m, n.parent = some p ∧ nodes[p]? = some m ∧ i ∈ m.children

structure Tree where
  nodes : Array Node
  wellFormed : WellFormed nodes
  deriving DecidableEq

namespace Tree

abbrev size (tree : Tree) : Nat := tree.nodes.size

theorem size_pos (tree : Tree) : 0 < tree.size := by
  obtain ⟨n, h, -⟩ := tree.wellFormed.root
  exact (Array.getElem?_eq_some_iff.1 h).1

def root (tree : Tree) : Fin tree.size := ⟨0, tree.size_pos⟩

def node? (tree : Tree) (id : Nat) : Option (Fin tree.size) :=
  if h : id < tree.size then some ⟨id, h⟩ else none

def node (tree : Tree) (i : Fin tree.size) : Node := getElem tree.nodes i.val i.isLt

theorem getElem?_val (tree : Tree) (i : Fin tree.size) :
    tree.nodes[i.val]? = some (tree.node i) :=
  Array.getElem?_eq_getElem i.isLt

def name (tree : Tree) (i : Fin tree.size) : String := (tree.node i).name

def text (tree : Tree) (i : Fin tree.size) : String := (tree.node i).text

theorem parent_lt (tree : Tree) (i : Fin tree.size) {p : Nat}
    (h : (tree.node i).parent = some p) : p < tree.size := by
  by_cases h0 : i.val = 0
  · obtain ⟨n, hn, none⟩ := tree.wellFormed.root
    have hi := tree.getElem?_val i
    rw [h0, hn, Option.some.injEq] at hi
    simp [← hi, none] at h
  · obtain ⟨q, m, hq, hm, -⟩ := tree.wellFormed.parent (tree.getElem?_val i) h0
    rw [h, Option.some.injEq] at hq
    exact hq ▸ (Array.getElem?_eq_some_iff.1 hm).1

theorem child_lt (tree : Tree) (i : Fin tree.size) {c : Nat}
    (h : c ∈ (tree.node i).children) : c < tree.size := by
  obtain ⟨m, hm, -⟩ := tree.wellFormed.child (tree.getElem?_val i) h
  exact (Array.getElem?_eq_some_iff.1 hm).1

def parent (tree : Tree) (i : Fin tree.size) : Option (Fin tree.size) :=
  (tree.node i).parent.pmap (fun p h => ⟨p, h⟩) fun _ h => tree.parent_lt i h

def children (tree : Tree) (i : Fin tree.size) : List (Fin tree.size) :=
  (tree.node i).children.pmap (fun c h => ⟨c, h⟩) fun _ h => tree.child_lt i h

@[simp] theorem parent_map_val (tree : Tree) (i : Fin tree.size) :
    (tree.parent i).map Fin.val = (tree.node i).parent := by
  simp [parent, Option.map_pmap]

@[simp] theorem children_map_val (tree : Tree) (i : Fin tree.size) :
    (tree.children i).map Fin.val = (tree.node i).children := by
  simp [children, List.map_pmap]

theorem parent_eq_some_iff {tree : Tree} {i p : Fin tree.size} :
    tree.parent i = some p ↔ (tree.node i).parent = some p.val := by
  rw [← parent_map_val, Option.map_eq_some_iff]
  exact ⟨fun h => ⟨p, h, rfl⟩, fun ⟨_, h, same⟩ => Fin.ext same ▸ h⟩

theorem mem_children_iff {tree : Tree} {i c : Fin tree.size} :
    c ∈ tree.children i ↔ c.val ∈ (tree.node i).children := by
  rw [← children_map_val, List.mem_map]
  exact ⟨fun h => ⟨c, h, rfl⟩, fun ⟨_, h, same⟩ => Fin.ext same ▸ h⟩

end Tree

end TreePattern
