import TreePattern.Options
import TreePattern.Pattern.Basic
/-!
What an index of node texts answers of a path. The index has been asked for the literal start of
the path already, so that a walk need not take the operations that it answers. Where it stops is
the entry point of the path; each operation has a gate that says how it stands to this point.
-/
namespace TreePattern

inductive Gate where
  /-- An index can answer the operation. -/
  | passive
  /-- No index can answer the operation, so the entry point comes before it at the latest. -/
  | before
  /-- An index can answer the operation but nothing behind it. -/
  | after
  deriving DecidableEq, Repr

def PathOp.gate (limit : UInt64) : PathOp → Gate
  | .down _ _ | .full | .fixed _ => .passive
  | .test .equals _ => .after
  | .move _ | .test _ _ => .before
  | .words range => if range.isIndexed limit then .passive else .before

/-- Whether an index can follow an operation. It knows the children of each node, the text, and
the first `limit` words of the text. -/
def PathOp.isIndexed (limit : UInt64) : PathOp → Bool
  | .down _ _ | .full | .fixed _ => true
  | .words range => range.first = 1 && 1 ≤ range.last.toInt && range.last.toInt ≤ limit.toNat
  | .move _ | .test _ _ => false

/-- How many operations at the start of a path an index answers: the longest run of those that it
can follow, and a test for equality right after them, since equal texts are what it finds. -/
def indexedCount (limit : UInt64) (ops : List PathOp) : Nat :=
  (ops.takeWhile (PathOp.isIndexed limit)).length +
    match ops.dropWhile (PathOp.isIndexed limit) with
    | .test .equals _ :: _ => 1
    | _ => 0

namespace Settings

def answeredCount (settings : Settings) (ops : List PathOp) : Nat :=
  if settings.staticIndex then indexedCount settings.indexedWordLimit ops else 0

def answered (settings : Settings) (ops : List PathOp) : List PathOp :=
  ops.take (settings.answeredCount ops)

def remaining (settings : Settings) (ops : List PathOp) : List PathOp :=
  ops.drop (settings.answeredCount ops)

@[simp] theorem answered_append_remaining (settings : Settings) (ops : List PathOp) :
    settings.answered ops ++ settings.remaining ops = ops :=
  List.take_append_drop _ ops

end Settings

end TreePattern
