import TreePattern.Text.Numeral
/-!
The reasons for which a range, a tree or a pattern is refused, and the sentence for each. A
pattern that merely fits nothing is no error.
-/
namespace TreePattern

/-- What is wrong with the links between the nodes of a tree. -/
inductive TreeFault where
  | noRoot
  | rootHasParent
  | danglingChild (node child : Nat)
  | unlinked (node : Nat)
  deriving DecidableEq, Repr

inductive Error where
  | missingTable (name : String)
  | childBounds (first last : UInt64)
  | wordBounds (first last : Int32)
  | childText (text : String)
  | wordText (text : String)
  | tree (fault : TreeFault)
  /-- A null test stands inside another form; `form` is its text. -/
  | innerNullTest (form : String)
  deriving DecidableEq, Repr

open Text

def TreeFault.message : TreeFault → String
  | .noRoot => "no root node"
  | .rootHasParent => "root node has a parent"
  | .danglingChild node child => "node " ++ ofNat node ++ " has a dangling child " ++ ofNat child
  | .unlinked node => "node " ++ ofNat node ++ " is not linked to a parent"

def Error.message : Error → String
  | .missingTable name => "Missing lookup \"" ++ name ++ "\""
  | .childBounds first last =>
    "Invalid child range (" ++ ofNat first.toNat ++ "-" ++ ofNat last.toNat ++ ")"
  | .wordBounds first last =>
    "Invalid word range [" ++ ofInt first.toInt ++ "-" ++ ofInt last.toInt ++ "]"
  | .childText text => "Parse error: Invalid child range \"" ++ text ++ "\""
  | .wordText text => "Parse error: Invalid word range \"" ++ text ++ "\""
  | .tree fault => "Invalid tree: " ++ fault.message
  | .innerNullTest form =>
    "Invalid pattern: IsNull is only allowed around a whole pattern: " ++ form

/-- A sequence of two succeeds only if both do. -/
theorem exists_of_bind_eq_ok {ε α β : Type} {x : Except ε α} {f : α → Except ε β} {b : β}
    (h : x >>= f = .ok b) : ∃ a, x = .ok a ∧ f a = .ok b := by
  cases x with
  | error e => cases h
  | ok a => exact ⟨a, rfl, h⟩

end TreePattern
