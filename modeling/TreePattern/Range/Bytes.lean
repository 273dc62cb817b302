import TreePattern.Range.Word
import TreePattern.Text.Span
/-!
Word ranges by bytes and machine words. Positions are resolved by signed sums of 64 bits, and the
words that a range extracts are cut out of the text by byte positions; either can fault. So can the
cut at the dash in the text of a range, which is by byte positions too.
-/
namespace TreePattern

open Text (Fault Span byteSpans slice)

/-- The sum of two signed words of 64 bits, if it is one. -/
def add64 (a b : Int64) : Except Fault Int64 :=
  if (a + b).toInt = a.toInt + b.toInt then .ok (a + b) else .error .overflow

namespace WordRange

/-- The position from the front that a position stands for among `count` words. -/
def fromFront64 (position : Int32) (count : Int64) : Except Fault Int64 := do
  if 0 < position then return position.toInt64
  else add64 (← add64 count 1) position.toInt64

/-- How many of `count` words stand before the given position; nothing when it lies outside, or when
there are too many words to count. -/
def index64? (position : Int32) (count : Nat) : Except Fault (Option Nat) :=
  if Int64.maxValue.toInt < count then .ok none
  else do
    let fromFront ← fromFront64 position (Int64.ofNat count)
    if fromFront < 1 ∨ Int64.ofNat count < fromFront then return none
    else
      let index ← add64 fromFront (-1)
      return if 0 ≤ index then some index.toInt.toNat else none

/-- The stretch of text from the first word of the range to the last one, by bytes. -/
def extractBytes? (r : WordRange) (text : String) : Except Fault (Option String) := do
  let words := byteSpans text
  let some first ← index64? r.first words.length | return none
  let some last ← index64? r.last words.length | return none
  if last < first then return none
  else
    match words[first]?, words[last]? with
    | some a, some b => return some (← slice text ⟨a.start, b.stop⟩)
    | _, _ => throw .missing

/-- Where the first dash behind the first character stands in bytes. -/
def dash? (cs : List Char) : Option Nat :=
  (((Text.indexed 0 cs).drop 1).find? fun place => place.2 = '-').map Prod.fst

/-- The bounds that a text without brackets gives, with the dash found and cut at by bytes. -/
def boundsBytes? (inner : String) : Except Fault (Option (Int32 × Int32)) := do
  let cs := inner.toList
  if cs.head? = some '-' ∧ cs.tail ≠ [] ∧ cs.tail.all Char.isDigit then
    return (word? cs.tail).map fun last => (1, last)
  else
    match dash? cs with
    | some i =>
      let some first := word? (← slice inner ⟨0, i⟩).toList | return none
      let rest ← slice inner ⟨i + 1, inner.utf8ByteSize⟩
      let some last := if rest = "" then some (-1) else word? rest.toList | return none
      return some (first, last)
    | none => return (word? cs).map fun position => (position, position)

def parseBytes? (text : String) : Except Fault (Except Error WordRange) := do
  let inner := String.ofList (Text.trim (Text.stripPair '[' ']' (Text.trim text.toList)))
  match ← boundsBytes? inner with
  | some (first, last) => return ofBounds first last
  | none => return .error (.wordText text)

end WordRange

end TreePattern
