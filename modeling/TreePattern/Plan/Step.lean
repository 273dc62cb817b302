import TreePattern.Pattern.Outcome
import TreePattern.Pattern.Text
import TreePattern.Table
import TreePattern.Text.Version
/-!
The steps of a compiled pattern. A step leads from a state to the states from which the rest of
the steps is tried, and may turn the answer of that rest around.
-/
namespace TreePattern

inductive Step where
  | path (op : PathOp)
  /-- Succeeds when the rest of the steps fails. -/
  | isNull
  | cleanVersion (policy : VersionPolicy)
  | pushDefault (value : String)
  /-- With `withDefault`, the innermost default serves a value that the table does not hold. -/
  | lookup (name : String) (table : Table) (withDefault : Bool)

/-- A point, and the defaults that no lookup has used up yet, innermost first. -/
structure State (tree : Tree) where
  point : Point tree
  defaults : List String
  deriving DecidableEq, Repr

namespace Step

def opText : PathOp → String
  | .down range name => "Down(" ++ range.text ++ name.getD "" ++ ")"
  | .move direction => direction.name ++ "()"
  | .test comparison literal => comparison.name ++ "(" ++ literal ++ ")"
  | .words range => "WordRange(" ++ range.text ++ ")"
  | .full => "BackToFull()"
  | .fixed value => "FixedString(" ++ value ++ ")"

def text : Step → String
  | .path op => opText op
  | .isNull => "IsNull()"
  | .cleanVersion _ => "CleanVersion()"
  | .pushDefault value => "DefaultValue(" ++ value ++ ")"
  | .lookup name _ _ => "Lookup(@" ++ name ++ ")"

/-- A value under its table entry, else under the default, if there is one. -/
def lookUp (table : Table) (value : String) (default : Option String) : Option String :=
  (table.resolve value).or default

def successors {tree : Tree} : Step → State tree → List (State tree)
  | .path op, s => (op.outcomes tree s.point).map fun p => ⟨p, s.defaults⟩
  | .isNull, s => [s]
  | .cleanVersion policy, s =>
    (policy s.point.value).toList.map fun v => ⟨⟨s.point.node, v⟩, s.defaults⟩
  | .pushDefault value, s => [⟨s.point, value :: s.defaults⟩]
  | .lookup _ table true, s =>
    (lookUp table s.point.value s.defaults.head?).toList.map fun v =>
      ⟨⟨s.point.node, v⟩, s.defaults.tail⟩
  | .lookup _ table false, s =>
    (lookUp table s.point.value none).toList.map fun v => ⟨⟨s.point.node, v⟩, s.defaults⟩

/-- The answer of a step entered with `value`, given the answer of the steps after it. -/
def conclude (value : String) : Step → Option String → Option String
  | .isNull, some _ => none
  | .isNull, none => some value
  | _, answer => answer

end Step

end TreePattern
