import TreePattern.Pattern.Basic
/-!
How patterns are written, and the names of moves and comparisons. Literals stand between quotation
marks as they are, without escapes.
-/
namespace TreePattern

def quoted (literal : String) : String := "\"" ++ literal ++ "\""

def Direction.name : Direction → String
  | .up => "Up"
  | .next => "Next"
  | .previous => "Prev"

def Comparison.name : Comparison → String
  | .equals => "Equals"
  | .notEquals => "NotEquals"
  | .startsWith => "StartsWith"
  | .endsWith => "EndsWith"
  | .contains => "Contains"

def Direction.text : Direction → String
  | .up => "^"
  | .next => ">"
  | .previous => "<"

def Comparison.text : Comparison → String
  | .equals => "="
  | .notEquals => "!="
  | .startsWith => "\x7b"
  | .endsWith => "\x7d"
  | .contains => "~"

def PathOp.text : PathOp → String
  | .down range name => "." ++ range.text ++ name.getD ""
  | .move direction => direction.text
  | .test comparison literal => comparison.text ++ quoted literal
  | .words range => range.text
  | .full => "@"
  | .fixed value => quoted value

def pathText (ops : List PathOp) : String := String.join (ops.map PathOp.text)

def Pattern.text : Pattern → String
  | .path ops => pathText ops
  | .lookup table (some default) inner =>
    "LookUp[" ++ table ++ ";" ++ inner.text ++ ";" ++ quoted default ++ "]"
  | .lookup table none inner => "LookUp[" ++ table ++ ";" ++ inner.text ++ "]"
  | .cleanVersion inner => "CleanVersion[" ++ inner.text ++ "]"
  | .isNull inner => "IsNull[" ++ inner.text ++ "]"

end TreePattern
