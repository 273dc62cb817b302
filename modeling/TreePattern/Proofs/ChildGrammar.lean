import TreePattern.Proofs.WordGrammar
import TreePattern.Range.Child
/-!
The grammar of child ranges. A text is read as a star, as one position, or as two positions around a
dash. A position has no sign but a plus, so a text has no dash besides the one that separates, and it
is read in at most one way. What a range is written as is one of these readings of the range.
-/
namespace TreePattern

open Text
open WordRange (Gap)

namespace ChildRange

/-- A number without a dash that is a position, as it is spelled. -/
structure Literal where
  letters : List Char
  value : UInt64
  spelled : Spells letters value.toNat
  unsigned : letters.head? ≠ some '-'

inductive Reading where
  | star
  | single (number : Literal)
  | between (first : Literal) (gap gap' : Gap) (last : Literal)

namespace Reading

def text : Reading → List Char
  | star => ['*']
  | single number => number.letters
  | between first gap gap' last =>
    first.letters ++ gap.letters ++ '-' :: (gap'.letters ++ last.letters)

/-- The first and the last position. -/
def bounds : Reading → UInt64 × UInt64
  | star => (1, 10)
  | single number => (number.value, number.value)
  | between first _ _ last => (first.value, last.value)

end Reading

namespace Literal

theorem ext_letters {w w' : Literal} (same : w.letters = w'.letters) : w = w' := by
  obtain ⟨letters, value, spelled, unsigned⟩ := w
  obtain ⟨letters', value', spelled', unsigned'⟩ := w'
  obtain rfl : letters = letters' := same
  obtain rfl : value = value' := Option.some.inj
    ((uint64?_eq_some_iff.2 ⟨spelled, unsigned⟩).symm.trans
      (uint64?_eq_some_iff.2 ⟨spelled', unsigned'⟩))
  rfl

theorem uint64?_trim (w : Literal) {cs : List Char} (trimmed : trim cs = w.letters) :
    uint64? (trim cs) = some w.value := by
  rw [trimmed]
  exact uint64?_eq_some_iff.2 ⟨w.spelled, w.unsigned⟩

theorem dash_not_mem (w : Literal) : '-' ∉ w.letters := by
  obtain ⟨c, ds, same, -, digits⟩ := w.spelled.exists_cons
  rw [same, List.mem_cons, not_or]
  refine ⟨fun dash => w.unsigned ?_, Text.dash_not_mem digits⟩
  rw [same, dash, List.head?_cons]

theorem ne_star (w : Literal) : w.letters ≠ ['*'] := by
  intro star
  have read := uint64?_eq_some_iff.2 ⟨w.spelled, w.unsigned⟩
  rw [star, show uint64? ['*'] = none by decide] at read
  cases read

/-- The dash behind a number, and behind blanks after it, is the first one. -/
theorem cut_append (w : Literal) (gap : Gap) (after : List Char) :
    cut '-' (w.letters ++ gap.letters ++ '-' :: after) =
      some (w.letters ++ gap.letters, after) := by
  refine cut_eq_some_iff.2 ⟨rfl, fun dash => ?_⟩
  rcases List.mem_append.1 dash with inside | blank
  · exact w.dash_not_mem inside
  · exact absurd (gap.blank '-' blank) (by decide)

end Literal

namespace Reading

/-- What a reading says stands before and behind the dash that separates. -/
def sides : Reading → Option (List Char × List Char)
  | star | single _ => none
  | between first gap gap' last =>
    some (first.letters ++ gap.letters, gap'.letters ++ last.letters)

theorem cut_text (r : Reading) : cut '-' r.text = r.sides := by
  cases r with
  | star => decide
  | single number => exact cut_eq_none_iff.2 number.dash_not_mem
  | between first gap gap' last => exact first.cut_append gap _

/-- A text has at most one reading. -/
theorem text_injective {r r' : Reading} (same : r.text = r'.text) : r = r' := by
  have divided : r.sides = r'.sides := by rw [← cut_text, same, cut_text]
  cases r with
  | star =>
    cases r' with
    | star => rfl
    | single number => exact absurd same.symm number.ne_star
    | between => cases divided
  | single number =>
    cases r' with
    | star => exact absurd same number.ne_star
    | single number' =>
      obtain rfl : number = number' := Literal.ext_letters same
      rfl
    | between => cases divided
  | between first gap gap' last =>
    cases r' with
    | star | single => cases divided
    | between first' other other' last' =>
      obtain ⟨front, back⟩ := Prod.mk.inj (Option.some.inj divided)
      obtain ⟨letters, blanks⟩ :=
        first.spelled.sharp.append_inj first'.spelled.sharp gap.blank other.blank front
      obtain ⟨blanks', letters'⟩ :=
        last.spelled.sharp.gap_append_inj last'.spelled.sharp gap'.blank other'.blank back
      obtain rfl : first = first' := Literal.ext_letters letters
      obtain rfl : last = last' := Literal.ext_letters letters'
      rw [WordRange.Gap.ext blanks, WordRange.Gap.ext blanks']

end Reading

theorem Reading.sharp_text (r : Reading) : Sharp r.text := by
  cases r with
  | star => exact sharp_singleton (by decide)
  | single number => exact number.spelled.sharp
  | between first gap gap' last =>
    have ends := first.spelled.sharp.append last.spelled.sharp first.spelled.ne_nil
      last.spelled.ne_nil (gap.letters ++ '-' :: gap'.letters)
    simpa [text] using ends

theorem bounds?_of_cut {cs before after : List Char} (divided : cut '-' cs = some (before, after)) :
    bounds? cs = do return (← uint64? (trim before), ← uint64? (trim after)) := by
  have starless : cs ≠ ['*'] := by
    rintro rfl
    cases divided
  rw [bounds?, if_neg starless, divided]

theorem bounds?_of_whole {cs : List Char} (starless : cs ≠ ['*']) (whole : cut '-' cs = none) :
    bounds? cs = (uint64? (trim cs)).map fun position => (position, position) := by
  rw [bounds?, if_neg starless, whole]

/-- What has a reading is read. -/
theorem bounds?_text (r : Reading) : bounds? r.text = some r.bounds := by
  cases r with
  | star => rfl
  | single number =>
    rw [Reading.text, bounds?_of_whole number.ne_star (cut_eq_none_iff.2 number.dash_not_mem),
      number.uint64?_trim number.spelled.sharp.trim_eq]
    rfl
  | between first gap gap' last =>
    rw [Reading.text, bounds?_of_cut (first.cut_append gap _),
      first.uint64?_trim (first.spelled.sharp.trim_append gap.blank),
      last.uint64?_trim (last.spelled.sharp.trim_gap_append gap'.blank)]
    rfl

/-- The number that a text is without the blanks around it. -/
theorem exists_literal {cs : List Char} {position : UInt64}
    (read : uint64? (trim cs) = some position) :
    ∃ w : Literal, w.letters = trim cs ∧ w.value = position := by
  obtain ⟨spelled, unsigned⟩ := uint64?_eq_some_iff.1 read
  exact ⟨⟨trim cs, position, spelled, unsigned⟩, rfl, rfl⟩

/-- What is read has a reading. -/
theorem exists_reading {cs : List Char} {ends : UInt64 × UInt64} (sharp : Sharp cs)
    (read : bounds? cs = some ends) : ∃ r : Reading, r.text = cs ∧ r.bounds = ends := by
  by_cases star : cs = ['*']
  · subst star
    exact ⟨.star, rfl, Option.some.inj read⟩
  · cases divided : cut '-' cs with
    | none =>
      rw [bounds?_of_whole star divided] at read
      obtain ⟨position, word, rfl⟩ := Option.map_eq_some_iff.1 read
      obtain ⟨w, letters, rfl⟩ := exists_literal word
      exact ⟨.single w, letters.trans sharp.trim_eq, rfl⟩
    | some sides =>
      obtain ⟨before, after⟩ := sides
      rw [bounds?_of_cut divided] at read
      obtain ⟨first, word, read⟩ := Option.bind_eq_some_iff.1 read
      obtain ⟨last, word', read⟩ := Option.bind_eq_some_iff.1 read
      obtain rfl : (first, last) = ends := Option.some.inj read
      obtain ⟨w, letters, rfl⟩ := exists_literal word
      obtain ⟨w', letters', rfl⟩ := exists_literal word'
      obtain ⟨rfl, -⟩ := cut_eq_some_iff.1 divided
      obtain ⟨⟨gap, blank, front⟩, gap', blank', back⟩ := sharp.exists_gaps
      refine ⟨.between w ⟨gap, blank⟩ ⟨gap', blank'⟩ w', ?_, rfl⟩
      rw [Reading.text, letters, letters', ← front, ← back]

theorem parse_of_bounds? {text : String} {inner : List Char} {first last : UInt64}
    (said : Inside '(' ')' text.toList inner) (read : bounds? inner = some (first, last)) :
    parse text = ofBounds first last := by
  rw [parse, ← inside_iff.1 said, read]

theorem parse_of_bounds?_eq_none {text : String} {inner : List Char}
    (said : Inside '(' ')' text.toList inner) (unread : bounds? inner = none) :
    parse text = .error (.childText text) := by
  rw [parse, ← inside_iff.1 said, unread]

theorem ofBounds_of_valid {first last : UInt64} (valid : 0 < first ∧ first ≤ last) :
    ∃ range, ofBounds first last = .ok range ∧ (range.first, range.last) = (first, last) :=
  ⟨⟨first, last, valid.1, valid.2⟩, dif_pos valid, rfl⟩

theorem ofBounds_of_invalid {first last : UInt64} (invalid : first = 0 ∨ last < first) :
    ofBounds first last = .error (.childBounds first last) := by
  apply dif_neg
  rintro ⟨pos, le⟩
  rcases invalid with rfl | lt
  · exact absurd pos (by decide)
  · exact absurd le (UInt64.not_le.2 lt)

/-- A position as it is written. -/
def Literal.ofPosition (position : UInt64) : Literal :=
  ⟨decimal position.toNat, position, spells_decimal _, head?_decimal_ne_dash _⟩

/-- The reading of a range that is written out. No blanks stand around the dash. -/
def written (r : ChildRange) : Reading :=
  if r.first = r.last then .single (.ofPosition r.first)
  else .between (.ofPosition r.first) ⟨[], by simp [Blanks]⟩ ⟨[], by simp [Blanks]⟩
    (.ofPosition r.last)

theorem bounds_written (r : ChildRange) : r.written.bounds = (r.first, r.last) := by
  unfold written
  split
  · next same => rw [← same]; rfl
  · rfl

theorem toList_text (r : ChildRange) : r.text.toList = '(' :: (r.written.text ++ [')']) := by
  unfold text written
  split <;> simp [Reading.text, Literal.ofPosition]

/-- A range is read back from its text, whatever its size. -/
theorem parse_text (r : ChildRange) : parse r.text = .ok r := by
  have said : Inside '(' ')' r.text.toList r.written.text := by
    rw [toList_text]
    exact inside_marked (by decide) (by decide) r.written.sharp_text
  have read : bounds? r.written.text = some (r.first, r.last) := by
    rw [bounds?_text, bounds_written]
  rw [parse_of_bounds? said read, ofBounds_bounds]

/-- A text says one thing inside its parentheses, and this has at most one reading. The range that
the text gives is the one with the bounds of the reading, or none when they start at zero or are out
of order; and a text without a reading gives none. Every range is read back from its own text. -/
theorem reads_by_grammar :
    (∀ text : String, ∃ inner, (∀ cs, Inside '(' ')' text.toList cs ↔ cs = inner) ∧
      (∀ r r' : Reading, r.text = inner → r'.text = inner → r = r') ∧
      (∀ r : Reading, r.text = inner →
        parse text = ofBounds r.bounds.1 r.bounds.2 ∧
        (0 < r.bounds.1 ∧ r.bounds.1 ≤ r.bounds.2 →
          ∃ range, parse text = .ok range ∧ (range.first, range.last) = r.bounds) ∧
        (r.bounds.1 = 0 ∨ r.bounds.2 < r.bounds.1 →
          parse text = .error (.childBounds r.bounds.1 r.bounds.2))) ∧
      ((∀ r : Reading, r.text ≠ inner) → parse text = .error (.childText text) ∧
        (Error.childText text).message =
          "Parse error: Invalid child range \"" ++ text ++ "\"")) ∧
    ∀ range : ChildRange, parse range.text = .ok range := by
  refine ⟨fun text => ?_, parse_text⟩
  obtain ⟨inner, said⟩ : ∃ inner, inner = trim (stripPair '(' ')' (trim text.toList)) := ⟨_, rfl⟩
  have inside : Inside '(' ')' text.toList inner := inside_iff.2 said
  have sharp : Sharp inner := said ▸ (core_trim _).sharp
  refine ⟨inner, fun cs => said ▸ inside_iff, fun r r' same same' => ?_, fun r same => ?_,
    fun unread => ⟨?_, rfl⟩⟩
  · exact Reading.text_injective (same.trans same'.symm)
  · have read : parse text = ofBounds r.bounds.1 r.bounds.2 :=
      parse_of_bounds? inside (by rw [← same, bounds?_text])
    rw [read]
    exact ⟨rfl, ofBounds_of_valid, ofBounds_of_invalid⟩
  · apply parse_of_bounds?_eq_none inside
    rw [Option.eq_none_iff_forall_ne_some]
    intro ends read
    obtain ⟨r, same, -⟩ := exists_reading sharp read
    exact unread r same

/-- Signs, leading zeros and blanks change nothing, a second dash is one too many, and the largest
position reads back. -/
theorem reads_by_grammar_blanks :
    ∃ r : Reading, r.text = "+2 -\t05".toList ∧ 0 < r.bounds.1 ∧ r.bounds.1 ≤ r.bounds.2 ∧
      (∃ range, parse " ( +2 -\t05)" = .ok range ∧ (range.first, range.last) = (2, 5)) ∧
      (∃ r' : Reading, r'.text = "3-1".toList ∧ r'.bounds.2 < r'.bounds.1 ∧
        parse "3-1" = .error (.childBounds 3 1)) ∧
      (∀ r' : Reading, r'.text ≠ "1--2".toList) ∧ parse "(1--2)" = .error (.childText "(1--2)") ∧
      ∃ top : ChildRange, top.first = UInt64.ofNat (2 ^ 64 - 1) ∧
        top.text = "(18446744073709551615)" ∧ parse top.text = .ok top := by
  obtain ⟨texts, ranges⟩ := reads_by_grammar
  have blanks : trim (stripPair '(' ')' (trim " ( +2 -\t05)".toList)) = "+2 -\t05".toList := by decide
  have bare : trim (stripPair '(' ')' (trim "3-1".toList)) = "3-1".toList := by decide
  have dashes : trim (stripPair '(' ')' (trim "(1--2)".toList)) = "1--2".toList := by decide
  obtain ⟨r, same, ends⟩ : ∃ r : Reading, r.text = "+2 -\t05".toList ∧ r.bounds = (2, 5) :=
    exists_reading (blanks ▸ (core_trim _).sharp) (by decide)
  obtain ⟨r', same', ends'⟩ : ∃ r : Reading, r.text = "3-1".toList ∧ r.bounds = (3, 1) :=
    exists_reading (bare ▸ (core_trim _).sharp) (by decide)
  have unread : ∀ r : Reading, r.text ≠ "1--2".toList := by
    intro r said
    have read := bounds?_text r
    rw [said, show bounds? "1--2".toList = none by decide] at read
    cases read
  obtain ⟨inner, one, -, meaning, -⟩ := texts " ( +2 -\t05)"
  obtain rfl := (one _).1 (inside_iff.2 blanks.symm)
  obtain ⟨inner', one', -, meaning', -⟩ := texts "3-1"
  obtain rfl := (one' _).1 (inside_iff.2 bare.symm)
  obtain ⟨inner'', one'', -, -, refusal⟩ := texts "(1--2)"
  obtain rfl := (one'' _).1 (inside_iff.2 dashes.symm)
  have valid : 0 < r.bounds.1 ∧ r.bounds.1 ≤ r.bounds.2 := by
    rw [ends]
    decide
  have disordered : r'.bounds.2 < r'.bounds.1 := by
    rw [ends']
    decide
  let top : ChildRange := ⟨18446744073709551615, 18446744073709551615, by decide, by decide⟩
  refine ⟨r, same, valid.1, valid.2, ?_, ⟨r', same', disordered, ?_⟩, unread, (refusal unread).1,
    top, rfl, by decide, ranges top⟩
  · rw [← ends]
    exact (meaning r same).2.1 valid
  · have refused := (meaning' r' same').2.2 (.inr disordered)
    rw [ends'] at refused
    exact refused

end ChildRange

end TreePattern
