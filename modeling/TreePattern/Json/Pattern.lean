import TreePattern.Json.Range
import TreePattern.Pattern.Text
/-!
The JSON form of patterns. An operation or form is an object whose one key names it, or its name
alone when nothing else belongs to it. A path is a chain of objects, each with an operation and
the rest of the path, which is `null` at the end. Fields are read in the order of their keys, and
the first one that does not fit decides the error.
-/
namespace TreePattern

namespace PathOp

def toJson : PathOp → Json
  | .down range name =>
    .obj [("Down", .obj [("range", range.toJson), ("name", .ofOption .str name)])]
  | .move direction => .str direction.name
  | .test comparison literal => .obj [(comparison.name, .str literal)]
  | .words range => .obj [("WordRange", range.toJson)]
  | .full => .str "BackToFull"
  | .fixed value => .obj [("FixedValue", .str value)]

/-- An operation that its name alone determines. -/
def ofName : String → Read PathOp
  | "Up" => .ok (.move .up)
  | "Next" => .ok (.move .next)
  | "Prev" => .ok (.move .previous)
  | "BackToFull" => .ok .full
  | _ => .error .misfit

def readDown : Json → Read PathOp
  | .obj members => do
    let name ← Json.readOption Json.readString (Json.field? "name" members)
    let range ← Json.require ChildRange.ofJson (Json.field? "range" members)
    return .down range name
  | _ => .error .misfit

def ofField (key : String) (data : Json) : Read PathOp :=
  match key with
  | "Down" => readDown data
  | "Equals" => .test .equals <$> data.readString
  | "NotEquals" => .test .notEquals <$> data.readString
  | "StartsWith" => .test .startsWith <$> data.readString
  | "EndsWith" => .test .endsWith <$> data.readString
  | "Contains" => .test .contains <$> data.readString
  | "WordRange" => .words <$> WordRange.ofJson data
  | "FixedValue" => .fixed <$> data.readString
  | name =>
    match data with
    | .null => ofName name
    | _ => .error .misfit

def ofJson : Json → Read PathOp
  | .str name => ofName name
  | .obj [(key, data)] => ofField key data
  | _ => .error .misfit

end PathOp

def pathToJson : List PathOp → Json
  | [] => .null
  | op :: rest => .obj [("op", op.toJson), ("next", pathToJson rest)]

/-- Reads a path, empty or not. -/
def pathOfJson : Json → Read (List PathOp)
  | .null => .ok []
  | .obj members =>
    match _h : Json.field? "next" members with
    | none => do
      let op ← Json.require PathOp.ofJson (Json.field? "op" members)
      return [op]
    | some next => do
      let rest ← pathOfJson next
      let op ← Json.require PathOp.ofJson (Json.field? "op" members)
      return op :: rest
  | .arr (op :: next :: extra) => do
    let op ← PathOp.ofJson op
    let rest ← pathOfJson next
    if extra.isEmpty then return op :: rest else throw .misfit
  | .arr [op] => do
    let _ ← PathOp.ofJson op
    throw .misfit
  | _ => .error .misfit
termination_by j => sizeOf j
decreasing_by
  · have := Json.sizeOf_lt_of_field? _h
    simp only [Json.obj.sizeOf_spec]
    omega
  · simp only [Json.arr.sizeOf_spec, List.cons.sizeOf_spec]
    omega

/-- Reads a path of at least one operation. -/
def chainOfJson : Json → Read (List PathOp)
  | .null => .error .misfit
  | j => pathOfJson j

namespace Pattern

def toJson : Pattern → Json
  | .path ops => .obj [("Path", pathToJson ops)]
  | .lookup table default inner =>
    .obj [("Lookup", .obj [("name", .str table), ("default", .ofOption .str default),
      ("inner", inner.toJson)])]
  | .cleanVersion inner => .obj [("CleanVersion", inner.toJson)]
  | .isNull inner => .obj [("IsNull", inner.toJson)]

def ofJson : Json → Read Pattern
  | .obj [("Path", data)] => .path <$> pathOfJson data
  | .obj [("Lookup", .obj members)] => do
    let default ← Json.readOption Json.readString (Json.field? "default" members)
    match _h : Json.field? "inner" members with
    | none => throw .misfit
    | some data =>
      let inner ← ofJson data
      let table ← Json.require Json.readString (Json.field? "name" members)
      return .lookup table default inner
  | .obj [("CleanVersion", data)] => .cleanVersion <$> ofJson data
  | .obj [("IsNull", data)] => .isNull <$> ofJson data
  | _ => .error .misfit
termination_by j => sizeOf j
decreasing_by
  · have := Json.sizeOf_lt_of_field? _h
    simp only [Json.obj.sizeOf_spec, List.cons.sizeOf_spec, Prod.mk.sizeOf_spec]
    omega
  · simp only [Json.obj.sizeOf_spec, List.cons.sizeOf_spec, Prod.mk.sizeOf_spec]
    omega
  · simp only [Json.obj.sizeOf_spec, List.cons.sizeOf_spec, Prod.mk.sizeOf_spec]
    omega

end Pattern

end TreePattern
