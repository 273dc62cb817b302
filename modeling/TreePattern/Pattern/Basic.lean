import TreePattern.Range.Child
import TreePattern.Range.Word
/-!
Patterns. A path moves over a tree and tests or takes the text of the nodes that it meets; the
forms around a path look the value up in a table, clean it as a version, or ask whether there is
no value.
-/
namespace TreePattern

inductive Direction where
  | up | next | previous
  deriving DecidableEq, Repr

inductive Comparison where
  | equals | notEquals | startsWith | endsWith | contains
  deriving DecidableEq, Repr

inductive PathOp where
  /-- To the children in a range, counting only those of the given name if there is one. -/
  | down (range : ChildRange) (name : Option String)
  | move (direction : Direction)
  | test (comparison : Comparison) (literal : String)
  | words (range : WordRange)
  /-- Takes the whole text of the node as the value. -/
  | full
  | fixed (value : String)
  deriving DecidableEq, Repr

inductive Pattern where
  | path (ops : List PathOp)
  | lookup (table : String) (default : Option String) (inner : Pattern)
  | cleanVersion (inner : Pattern)
  | isNull (inner : Pattern)
  deriving DecidableEq, Repr

/-- The path inside all forms. -/
def Pattern.ops : Pattern → List PathOp
  | .path ops => ops
  | .lookup _ _ inner | .cleanVersion inner | .isNull inner => inner.ops

/-- Whether a text holds another one at some place. -/
def occursIn (part : List Char) : List Char → Bool
  | [] => part.isEmpty
  | c :: cs => part.isPrefixOf (c :: cs) || occursIn part cs

theorem occursIn_iff {part text : List Char} : occursIn part text ↔ part <:+: text := by
  induction text with
  | nil => simp [occursIn]
  | cons c cs ih => simp [occursIn, List.infix_cons_iff, ih]

/-- Compares a text with a literal, letter by letter and case by case. -/
def Comparison.holds : Comparison → String → String → Bool
  | .equals, literal, text => text = literal
  | .notEquals, literal, text => text ≠ literal
  | .startsWith, literal, text => literal.toList.isPrefixOf text.toList
  | .endsWith, literal, text => literal.toList.isSuffixOf text.toList
  | .contains, literal, text => occursIn literal.toList text.toList

end TreePattern
