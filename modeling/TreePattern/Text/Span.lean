import TreePattern.Text.Word
/-!
Parts of a text by the positions where they start and stop. The words of a text are found in one
pass over its characters, which keeps the byte position of the next character and the start of the
word that is open. A part is cut out by byte positions only where both lie between characters.
-/
namespace TreePattern.Text

/-- From a start up to a stop, which is not part of it. -/
structure Span where
  start : Nat
  stop : Nat
  deriving DecidableEq, Repr

def Span.shift (k : Nat) (span : Span) : Span := ⟨k + span.start, k + span.stop⟩

/-- What ends a computation with machine words and bytes: a sum that does not fit, a missing element
of a list, or a position that is not one of the text or lies inside a character. -/
inductive Fault where
  | overflow | missing | offBoundary
  deriving DecidableEq, Repr

/-- A pass over a text, with the words that it has closed. -/
structure Scan where
  here : Nat
  opened : Option Nat
  closed : List Span
  deriving DecidableEq, Repr

namespace Scan

/-- A separator closes the word that is open, and any other character opens a word if none is. -/
def step (scan : Scan) (c : Char) : Scan :=
  let next := scan.here + c.utf8Size
  match isSeparator c, scan.opened with
  | true, some start => ⟨next, none, scan.closed ++ [⟨start, scan.here⟩]⟩
  | false, none => ⟨next, some scan.here, scan.closed⟩
  | _, opened => ⟨next, opened, scan.closed⟩

/-- The words of a text of the given size, the last of which may still be open. -/
def finish (scan : Scan) (size : Nat) : List Span :=
  match scan.opened with
  | some start => scan.closed ++ [⟨start, size⟩]
  | none => scan.closed

end Scan

/-- The words of a text in bytes. -/
def byteSpans (text : String) : List Span :=
  (text.toList.foldl Scan.step ⟨0, none, []⟩).finish text.utf8ByteSize

/-- Characters with the positions where they start in bytes, from a position on. -/
def indexed : Nat → List Char → List (Nat × Char)
  | _, [] => []
  | here, c :: cs => (here, c) :: indexed (here + c.utf8Size) cs

/-- The part of a text in a span of bytes. -/
def slice (text : String) (span : Span) : Except Fault String :=
  let start : String.Pos.Raw := ⟨span.start⟩
  let stop : String.Pos.Raw := ⟨span.stop⟩
  if h : start.IsValid text ∧ stop.IsValid text ∧ span.start ≤ span.stop then
    .ok (text.extract (text.pos start h.1) (text.pos stop h.2.1))
  else .error .offBoundary

end TreePattern.Text
