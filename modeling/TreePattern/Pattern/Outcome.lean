import TreePattern.Pattern.Basic
import TreePattern.Tree.Sibling
/-!
Where a path operation leads. From a point, which is a node and a value, it reaches a list of
points: several for a move to the children, in the order in which they are tried, and at most one
otherwise.
-/
namespace TreePattern

structure Point (tree : Tree) where
  node : Fin tree.size
  value : String
  deriving DecidableEq, Repr

namespace Tree

def move (tree : Tree) : Direction → Fin tree.size → Option (Fin tree.size)
  | .up => tree.parent
  | .next => tree.nextSibling
  | .previous => tree.previousSibling

/-- The children of one name, or all of them. -/
def childrenNamed (tree : Tree) (i : Fin tree.size) : Option String → List (Fin tree.size)
  | none => tree.children i
  | some name => (tree.children i).filter fun c => tree.name c = name

end Tree

def PathOp.outcomes (tree : Tree) : PathOp → Point tree → List (Point tree)
  | .down range name, p =>
    (range.select (tree.childrenNamed p.node name)).map fun c => ⟨c, p.value⟩
  | .move direction, p => (tree.move direction p.node).toList.map fun i => ⟨i, p.value⟩
  | .test comparison literal, p =>
    if comparison.holds literal (tree.text p.node) then [p] else []
  | .words range, p => (range.extract? (tree.text p.node)).toList.map fun v => ⟨p.node, v⟩
  | .full, p => [⟨p.node, tree.text p.node⟩]
  | .fixed value, p => [⟨p.node, value⟩]

end TreePattern
