import TreePattern.Json.Basic
import TreePattern.Options
/-!
The JSON form of settings: an object or an array of them, in which any may be missing, though in
an array only the last ones can be.
-/
namespace TreePattern

namespace Settings

def toJson (settings : Settings) : Json :=
  .obj [("verbose", .bool settings.verbose), ("static_index", .bool settings.staticIndex),
    ("indexed_word_limit", .ofUInt64 settings.indexedWordLimit)]

def ofParts (verbose staticIndex limit : Option Json) : Read Settings := do
  let default : Settings := {}
  let verbose ← Json.readD Json.readBool default.verbose verbose
  let staticIndex ← Json.readD Json.readBool default.staticIndex staticIndex
  let indexedWordLimit ← Json.readD Json.readUInt64 default.indexedWordLimit limit
  return { verbose, staticIndex, indexedWordLimit }

def ofJson : Json → Read Settings
  | .obj members =>
    ofParts (Json.field? "verbose" members) (Json.field? "static_index" members)
      (Json.field? "indexed_word_limit" members)
  | .arr items =>
    if items.length ≤ 3 then ofParts items[0]? items[1]? items[2]? else .error .misfit
  | _ => .error .misfit

end Settings

end TreePattern
