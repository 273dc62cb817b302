import TreePattern.Dict
import TreePattern.Error
/-!
JSON values, and readers of them. A reader either finds the value that it looks for, or says that
the JSON does not have the right shape, or that the value in it is refused.
-/
namespace TreePattern

inductive Json where
  | null
  | bool (b : Bool)
  | int (n : Int)
  /-- A number, kept as its text, that is no integer or none of 64 bits. -/
  | number (text : String)
  | str (s : String)
  | arr (items : List Json)
  | obj (members : List (String × Json))

inductive ReadError where
  | misfit
  | refused (error : Error)
  deriving DecidableEq, Repr

abbrev Read (α : Type) := Except ReadError α

/-- The outcome of a check that may refuse what was read. -/
def Read.ofExcept {α : Type} : Except Error α → Read α
  | .ok a => .ok a
  | .error e => .error (.refused e)

/-- A value that has the right shape, if there is one. -/
def Read.ofOption {α : Type} : Option α → Read α
  | some a => .ok a
  | none => .error .misfit

namespace Json

def readString : Json → Read String
  | .str s => .ok s
  | _ => .error .misfit

def readBool : Json → Read Bool
  | .bool b => .ok b
  | _ => .error .misfit

def readNat : Json → Read Nat
  | .int (.ofNat n) => .ok n
  | _ => .error .misfit

def readUInt64 : Json → Read UInt64
  | .int (.ofNat n) => Read.ofOption (Text.uint64OfNat? n)
  | _ => .error .misfit

def readInt32 : Json → Read Int32
  | .int n => Read.ofOption (Text.int32OfInt? n)
  | _ => .error .misfit

/-- Nothing stands for a missing value as well as `null` does. -/
def readOption {α : Type} (read : Json → Read α) : Option Json → Read (Option α)
  | none | some .null => .ok none
  | some j => some <$> read j

/-- A value that may be missing. -/
def readD {α : Type} (read : Json → Read α) (default : α) : Option Json → Read α
  | none => .ok default
  | some j => read j

/-- A value that must not be missing. -/
def require {α : Type} (read : Json → Read α) : Option Json → Read α
  | none => .error .misfit
  | some j => read j

def readList {α : Type} (read : Json → Read α) : Json → Read (List α)
  | .arr items => items.mapM read
  | _ => .error .misfit

/-- An object whose keys are names of the writer's choice. -/
def readDict {α : Type} (read : Json → Read α) : Json → Read (Dict α)
  | .obj members => do
    let entries ← members.mapM fun m => do return (m.1, ← read m.2)
    return Dict.ofList entries
  | _ => .error .misfit

def field? (key : String) (members : List (String × Json)) : Option Json := Dict.find? key members

def ofOption {α : Type} (write : α → Json) : Option α → Json
  | none => .null
  | some a => write a

def ofUInt64 (n : UInt64) : Json := .int n.toNat

def ofInt32 (n : Int32) : Json := .int n.toInt

def ofDict {α : Type} (write : α → Json) (d : Dict α) : Json :=
  .obj (d.entries.map fun e => (e.1, write e.2))

theorem field?_cons (key k : String) (j : Json) (members : List (String × Json)) :
    field? key ((k, j) :: members) = if k = key then some j else field? key members := rfl

@[simp] theorem readUInt64_ofUInt64 (n : UInt64) : readUInt64 (ofUInt64 n) = .ok n := by
  simp [readUInt64, ofUInt64, Read.ofOption]

@[simp] theorem readInt32_ofInt32 (n : Int32) : readInt32 (ofInt32 n) = .ok n := by
  simp [readInt32, ofInt32, Read.ofOption]

theorem sizeOf_lt_of_field? {key : String} {members : List (String × Json)} {j : Json}
    (h : field? key members = some j) : sizeOf j < sizeOf members := by
  induction members with
  | nil => simp [field?, Dict.find?] at h
  | cons m rest ih =>
    obtain ⟨k, v⟩ := m
    simp only [field?, Dict.find?] at h ih
    split at h
    · simp only [Option.some.injEq] at h
      subst h
      simp only [List.cons.sizeOf_spec, Prod.mk.sizeOf_spec]
      omega
    · have := ih h
      simp only [List.cons.sizeOf_spec]
      omega

end Json

end TreePattern
