import TreePattern.Tree.Basic
/-!
Growing a tree from its root, one child at a time. Nodes are numbered in the order in which they
are added, and children stand in that order too.
-/
namespace TreePattern

/-- A tree of one node. -/
def Tree.leaf (name text : String) : Tree where
  nodes := #[⟨name, text, none, []⟩]
  wellFormed := by
    constructor
    · exact ⟨_, rfl, rfl⟩
    · intro i c n hi hc
      cases i <;> simp at hi
      simp [← hi] at hc
    · intro i n hi h0
      cases i <;> simp at hi h0

/-- Adds a node at the end and to the children of `parent`. -/
def attach (nodes : Array Node) (parent : Nat) (name text : String) : Array Node :=
  (nodes.modify parent fun n => { n with children := n.children ++ [nodes.size] }).push
    ⟨name, text, some parent, []⟩

theorem getElem?_attach (nodes : Array Node) (parent i : Nat) (name text : String) :
    (attach nodes parent name text)[i]? =
      if i = nodes.size then some ⟨name, text, some parent, []⟩
      else if parent = i then
        nodes[i]?.map fun n => { n with children := n.children ++ [nodes.size] }
      else nodes[i]? := by
  simp [attach, Array.getElem?_push, Array.getElem?_modify]

/-- A node stays, with its parent and with all children that it had. -/
theorem exists_attach {nodes : Array Node} {parent i : Nat} {n : Node} (name text : String)
    (h : nodes[i]? = some n) : ∃ m, (attach nodes parent name text)[i]? = some m ∧
      m.parent = n.parent ∧ ∀ c ∈ n.children, c ∈ m.children := by
  have lt := (Array.getElem?_eq_some_iff.1 h).1
  rw [getElem?_attach, if_neg (by omega), h]
  split
  · exact ⟨_, rfl, rfl, fun c hc => List.mem_append_left _ hc⟩
  · exact ⟨n, rfl, rfl, fun _ hc => hc⟩

/-- Only the parent gains a child, namely the new node. -/
theorem of_attach {nodes : Array Node} {parent i : Nat} {n : Node} {name text : String}
    (h : (attach nodes parent name text)[i]? = some n) (hi : i ≠ nodes.size) :
    ∃ m, nodes[i]? = some m ∧ n.parent = m.parent ∧
      ∀ c ∈ n.children, c ∈ m.children ∨ i = parent ∧ c = nodes.size := by
  rw [getElem?_attach, if_neg hi] at h
  split at h
  · next eq =>
    obtain ⟨m, hm, rfl⟩ := Option.map_eq_some_iff.1 h
    refine ⟨m, hm, rfl, fun c hc => ?_⟩
    rcases List.mem_append.1 hc with hc | hc
    · exact .inl hc
    · exact .inr ⟨eq.symm, List.mem_singleton.1 hc⟩
  · exact ⟨n, h, rfl, fun _ hc => .inl hc⟩

theorem WellFormed.attach {nodes : Array Node} (wf : WellFormed nodes) {parent : Nat}
    (hp : parent < nodes.size) (name text : String) :
    WellFormed (attach nodes parent name text) := by
  have last : (TreePattern.attach nodes parent name text)[nodes.size]? =
      some ⟨name, text, some parent, []⟩ := by rw [getElem?_attach, if_pos rfl]
  constructor
  · obtain ⟨n, hn, none⟩ := wf.root
    obtain ⟨m, hm, same, -⟩ := exists_attach name text hn
    exact ⟨m, hm, same.trans none⟩
  · intro i c n hi hc
    by_cases new : i = nodes.size
    · rw [new, last, Option.some.injEq] at hi
      simp [← hi] at hc
    · obtain ⟨m, hm, -, gained⟩ := of_attach hi new
      rcases gained c hc with old | ⟨rfl, rfl⟩
      · obtain ⟨k, hk, up⟩ := wf.child hm old
        obtain ⟨k', hk', same, -⟩ := exists_attach name text hk
        exact ⟨k', hk', same.trans up⟩
      · exact ⟨_, last, rfl⟩
  · intro i n hi h0
    by_cases new : i = nodes.size
    · rw [new, last, Option.some.injEq] at hi
      have hn := Array.getElem?_eq_getElem hp
      refine ⟨parent, { nodes[parent] with children := nodes[parent].children ++ [nodes.size] },
        by simp [← hi], ?_, by simp [new]⟩
      rw [getElem?_attach, if_neg (by omega), if_pos rfl, hn]
      rfl
    · obtain ⟨m, hm, same, -⟩ := of_attach hi new
      obtain ⟨p, k, up, hk, mem⟩ := wf.parent hm h0
      obtain ⟨k', hk', -, kept⟩ := exists_attach name text hk
      exact ⟨p, k', same.trans up, hk', kept i mem⟩

namespace Tree

def addChild (tree : Tree) (parent : Fin tree.size) (name text : String) : Tree :=
  ⟨attach tree.nodes parent name text, tree.wellFormed.attach parent.isLt name text⟩

/-- Adds children one after another, each under the node with the given number; nothing when
there is no such node yet. -/
def build? (name text : String) (children : List (Nat × String × String)) : Option Tree :=
  children.foldlM (fun tree child =>
    (tree.node? child.1).map fun parent => tree.addChild parent child.2.1 child.2.2)
    (leaf name text)

end Tree

end TreePattern
