import TreePattern.Json.Basic
import TreePattern.Range.Child
import TreePattern.Range.Word
/-!
The JSON form of ranges: an object of the two bounds, or an array of them. A range is checked
when both bounds have been read.
-/
namespace TreePattern

/-- Two values under the given keys, or two in a row. -/
def Json.readPair {α : Type} (read : Json → Read α) (first second : String) :
    Json → Read (α × α)
  | .obj members => do
    let a ← require read (field? first members)
    let b ← require read (field? second members)
    return (a, b)
  | .arr [a, b] => do return (← read a, ← read b)
  | _ => .error .misfit

def ChildRange.toJson (r : ChildRange) : Json :=
  .obj [("start", .ofUInt64 r.first), ("end", .ofUInt64 r.last)]

def ChildRange.ofJson (j : Json) : Read ChildRange := do
  let (first, last) ← j.readPair Json.readUInt64 "start" "end"
  Read.ofExcept (ofBounds first last)

def WordRange.toJson (r : WordRange) : Json :=
  .obj [("first", .ofInt32 r.first), ("last", .ofInt32 r.last)]

def WordRange.ofJson (j : Json) : Read WordRange := do
  let (first, last) ← j.readPair Json.readInt32 "first" "last"
  Read.ofExcept (ofBounds first last)

end TreePattern
