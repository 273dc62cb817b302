import TreePattern.Error
import TreePattern.Text.Blank
import TreePattern.Text.Delimiter
/-!
Ranges of child positions. Positions count from one and both ends belong to the range. A range
is written `(n)` or `(m-n)`; it is also read without the parentheses, and `*` stands for the
first ten positions.
-/
namespace TreePattern

structure ChildRange where
  first : UInt64
  last : UInt64
  first_pos : 0 < first
  first_le_last : first ≤ last
  deriving DecidableEq, Repr

namespace ChildRange

def ofBounds (first last : UInt64) : Except Error ChildRange :=
  if h : 0 < first ∧ first ≤ last then .ok ⟨first, last, h.1, h.2⟩
  else .error (.childBounds first last)

@[simp] theorem ofBounds_bounds (r : ChildRange) : ofBounds r.first r.last = .ok r := by
  simp [ofBounds, r.first_pos, r.first_le_last]

theorem bounds_of_ofBounds {first last : UInt64} {r : ChildRange} (h : ofBounds first last = .ok r) :
    (first, last) = (r.first, r.last) := by
  unfold ofBounds at h
  split at h
  · rw [← Except.ok.inj h]
  · cases h

def ofPosition (position : UInt64) : Except Error ChildRange := ofBounds position position

/-- The range that `*` stands for. -/
def star : ChildRange := ⟨1, 10, by decide, by decide⟩

def contains (r : ChildRange) (position : UInt64) : Bool :=
  r.first ≤ position && position ≤ r.last

/-- The members of a list whose positions lie in the range, in order. -/
def select {α : Type} (r : ChildRange) (xs : List α) : List α :=
  (xs.take r.last.toNat).drop (r.first.toNat - 1)

def text (r : ChildRange) : String :=
  if r.first = r.last then "(" ++ Text.ofNat r.first.toNat ++ ")"
  else "(" ++ Text.ofNat r.first.toNat ++ "-" ++ Text.ofNat r.last.toNat ++ ")"

/-- The bounds that a text without parentheses gives: a star, one position, or two around the
first dash, with blanks allowed around each position. -/
def bounds? (cs : List Char) : Option (UInt64 × UInt64) :=
  if cs = ['*'] then some (star.first, star.last)
  else match Text.cut '-' cs with
    | some (before, after) => do
      let first ← Text.uint64? (Text.trim before)
      let last ← Text.uint64? (Text.trim after)
      return (first, last)
    | none => (Text.uint64? (Text.trim cs)).map fun position => (position, position)

def parse (text : String) : Except Error ChildRange :=
  match bounds? (Text.trim (Text.stripPair '(' ')' (Text.trim text.toList))) with
  | some (first, last) => ofBounds first last
  | none => .error (.childText text)

end ChildRange

end TreePattern
