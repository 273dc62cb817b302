import TreePattern.Json.Basic
import TreePattern.Tree.Check
/-!
The JSON form of trees: the list of their nodes, whose links are checked when all have been read.
-/
namespace TreePattern

def Node.toJson (n : Node) : Json :=
  .obj [("name", .str n.name), ("text", .str n.text),
    ("parent", .ofOption (fun p => .int (Int.ofNat p)) n.parent),
    ("children", .arr (n.children.map fun c => .int (Int.ofNat c)))]

def Node.ofJson : Json → Read Node
  | .obj members => do
    let children ← Json.require (Json.readList Json.readNat) (Json.field? "children" members)
    let name ← Json.require Json.readString (Json.field? "name" members)
    let parent ← Json.readOption Json.readNat (Json.field? "parent" members)
    let text ← Json.require Json.readString (Json.field? "text" members)
    return ⟨name, text, parent, children⟩
  | .arr [name, text, parent, children] => do
    let name ← name.readString
    let text ← text.readString
    let parent ← Json.readOption Json.readNat (some parent)
    let children ← children.readList Json.readNat
    return ⟨name, text, parent, children⟩
  | _ => .error .misfit

namespace Tree

def toJson (tree : Tree) : Json := .obj [("nodes", .arr (tree.nodes.toList.map Node.toJson))]

def ofJson (j : Json) : Read Tree := do
  let nodes ← match j with
    | .obj members => Json.require (Json.readList Node.ofJson) (Json.field? "nodes" members)
    | .arr [nodes] => nodes.readList Node.ofJson
    | _ => .error .misfit
  Read.ofExcept ((ofNodes nodes.toArray).mapError Error.tree)

end Tree

end TreePattern
