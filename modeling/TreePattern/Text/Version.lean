/-!
Cleaning of version texts. A policy turns the raw text into the version that it carries, or finds
none in it.
-/
namespace TreePattern

abbrev VersionPolicy := String → Option String

namespace VersionPolicy

/-- The digits up to the first character that belongs to no version. A run of dots and
underscores between them becomes one dot, whose place is known by `afterDot`. -/
def scan (afterDot : Bool) : List Char → List Char
  | [] => []
  | c :: cs =>
    if c.isDigit then c :: scan false cs
    else if c = '.' ∨ c = '_' then if afterDot then scan true cs else '.' :: scan true cs
    else []

/-- The text without the dots at its end. -/
def dropTrailingDots (version : List Char) : List Char :=
  (version.reverse.dropWhile (· = '.')).reverse

/-- Groups of digits with single dots between them, from the first digit of the text on. -/
def canonical : VersionPolicy := fun raw =>
  match raw.toList.dropWhile fun c => !c.isDigit with
  | [] => none
  | start => some (String.ofList (dropTrailingDots (scan false start)))

/-- Only the first group of digits of the canonical version. -/
def major : VersionPolicy := fun raw =>
  (canonical raw).map fun version => String.ofList (version.toList.takeWhile (· ≠ '.'))

end VersionPolicy

end TreePattern
