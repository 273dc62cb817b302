import TreePattern.Json.Basic
import TreePattern.Table
/-!
The JSON form of lookup tables: an object of tables by name, each an object of values by key.
-/
namespace TreePattern

def Registry.toJson (registry : Registry) : Json := Json.ofDict (Json.ofDict Json.str) registry

def Registry.ofJson (j : Json) : Read Registry := j.readDict (Json.readDict Json.readString)

end TreePattern
