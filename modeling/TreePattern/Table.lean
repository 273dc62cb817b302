import TreePattern.Dict
/-!
Lookup tables, and how a value is resolved in one: under itself, or else under its form in lower
case. Only the letters of ASCII have a case here.
-/
namespace TreePattern

abbrev Table := Dict String

/-- Lookup tables by name. -/
abbrev Registry := Dict Table

def lowerCase (text : String) : String := String.ofList (text.toList.map Char.toLower)

def hasUpperCase (text : String) : Bool := text.toList.any Char.isUpper

def Table.resolve (table : Table) (key : String) : Option String :=
  match table.get? key with
  | some value => some value
  | none => if hasUpperCase key then table.get? (lowerCase key) else none

/-- Registers a table under a name, instead of any earlier one of that name. -/
def Registry.addTable (registry : Registry) (name : String) (entries : List (String × String)) :
    Registry :=
  registry.insert name (Dict.ofList entries)

/-- Registers tables one after another, each a name with entries. -/
def Registry.ofTables (tables : List (String × List (String × String))) : Registry :=
  tables.foldl (fun registry table => registry.addTable table.1 table.2) Dict.empty

end TreePattern
