import TreePattern.Error
import TreePattern.Text.Delimiter
import TreePattern.Text.Word
/-!
Ranges of words. Positions count from one, or from the end when they are negative, and both ends
belong to the range. A range is written `[n]` or `[m-n]`; it is also read without the brackets,
`-n` reads as the first `n` words, and `m-` as all words from the `m`th on.
-/
namespace TreePattern

/-- Bounds of which neither is zero, and which are in order when they count from the same side. -/
def WordRange.Valid (first last : Int32) : Prop :=
  first ≠ 0 ∧ last ≠ 0 ∧ ((0 < first ↔ 0 < last) → first ≤ last)

instance (first last : Int32) : Decidable (WordRange.Valid first last) := by
  unfold WordRange.Valid; infer_instance

structure WordRange where
  first : Int32
  last : Int32
  valid : WordRange.Valid first last
  deriving DecidableEq, Repr

namespace WordRange

def ofBounds (first last : Int32) : Except Error WordRange :=
  if h : Valid first last then .ok ⟨first, last, h⟩ else .error (.wordBounds first last)

@[simp] theorem ofBounds_bounds (r : WordRange) : ofBounds r.first r.last = .ok r := by
  simp [ofBounds, r.valid]

theorem bounds_of_ofBounds {first last : Int32} {r : WordRange} (h : ofBounds first last = .ok r) :
    (first, last) = (r.first, r.last) := by
  unfold ofBounds at h
  split at h
  · rw [← Except.ok.inj h]
  · cases h

/-- The first words of a text, as far as an index that keeps `limit` of them goes. -/
def isIndexed (r : WordRange) (limit : UInt64) : Bool :=
  r.first = 1 && 1 ≤ r.last && r.last.toInt ≤ limit.toNat

/-- How many of `count` words stand before the given position; nothing when it lies outside. -/
def offset? (position : Int32) (count : Nat) : Option Nat :=
  let p : Int := if 0 < position then position.toInt else count + 1 + position.toInt
  if 1 ≤ p ∧ p ≤ count then some (p.toNat - 1) else none

/-- The stretch of text from the first word of the range to the last one. -/
def extract? (r : WordRange) (text : String) : Option String := do
  let words := (Text.Words.ofList text.toList).words
  let first ← offset? r.first words.length
  let last ← offset? r.last words.length
  if first ≤ last then
    return String.ofList (Text.stretch ((words.take (last + 1)).drop first))
  else none

def text (r : WordRange) : String :=
  if r.first = r.last then "[" ++ Text.ofInt r.first.toInt ++ "]"
  else "[" ++ Text.ofInt r.first.toInt ++ "-" ++ Text.ofInt r.last.toInt ++ "]"

def word? (cs : List Char) : Option Int32 := Text.int32? (Text.trim cs)

/-- The bounds that a text without brackets gives. A dash in front of digits alone asks for the
first words; otherwise the first dash after the first character stands between the bounds. -/
def bounds? : List Char → Option (Int32 × Int32)
  | [] => none
  | c :: cs =>
    if c = '-' ∧ cs ≠ [] ∧ cs.all Char.isDigit then (word? cs).map fun last => (1, last)
    else match Text.cut '-' cs with
      | some (before, after) => do
        let first ← word? (c :: before)
        let last ← if after = [] then some (-1) else word? after
        return (first, last)
      | none => (word? (c :: cs)).map fun position => (position, position)

def parse (text : String) : Except Error WordRange :=
  match bounds? (Text.trim (Text.stripPair '[' ']' (Text.trim text.toList))) with
  | some (first, last) => ofBounds first last
  | none => .error (.wordText text)

end WordRange

end TreePattern
