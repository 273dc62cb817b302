import TreePattern.Proofs.Bytes
import TreePattern.Proofs.Lexical
import TreePattern.Proofs.RangeText
/-!
The grammar of word ranges. A text is read in one of four ways: as a count of first words, as one
position, as a position with all words behind it, or as two positions. It is read in at most one of
them: a number has a dash in front at most, so the dash that separates is the first one past the
first character. The reader finds this reading if there is one and refuses the text otherwise, and
when it cuts at that dash by bytes, nothing faults.
-/
namespace TreePattern

open Text

namespace WordRange

/-- A number that is a position, as it is spelled. -/
structure Literal where
  letters : List Char
  value : Int32
  spelled : Spells letters value.toInt

/-- Blanks that may stand between a dash and a number. -/
@[ext] structure Gap where
  letters : List Char
  blank : Blanks letters

inductive Reading where
  /-- As many first words as the number behind the dash says. -/
  | count (number : Literal) (digits : Digits number.letters)
  | single (number : Literal) (unsigned : number.letters.head? ≠ some '-')
  | onward (first : Literal) (gap : Gap)
  | between (first : Literal) (gap gap' : Gap) (last : Literal)

namespace Reading

def text : Reading → List Char
  | count number _ => '-' :: number.letters
  | single number _ => number.letters
  | onward first gap => first.letters ++ gap.letters ++ ['-']
  | between first gap gap' last =>
    first.letters ++ gap.letters ++ '-' :: (gap'.letters ++ last.letters)

/-- The first and the last position. -/
def bounds : Reading → Int32 × Int32
  | count number _ => (1, number.value)
  | single number _ => (number.value, number.value)
  | onward first _ => (first.value, -1)
  | between first _ _ last => (first.value, last.value)

end Reading

/-- The two sides of the dash that separates, the first one past the first character. -/
def divide : List Char → Option (List Char × List Char)
  | [] => none
  | c :: cs => (cut '-' cs).map fun sides => (c :: sides.1, sides.2)

theorem divide_eq_some_iff {cs before after : List Char} : divide cs = some (before, after) ↔
    ∃ c rest, before = c :: rest ∧ '-' ∉ rest ∧ cs = before ++ '-' :: after := by
  cases cs with
  | nil => simp [divide]
  | cons c cs =>
    simp only [divide, Option.map_eq_some_iff, Prod.exists, Prod.mk.injEq, cut_eq_some_iff]
    constructor
    · rintro ⟨rest, after, ⟨rfl, free⟩, rfl, rfl⟩
      exact ⟨c, rest, rfl, free, rfl⟩
    · rintro ⟨d, rest, rfl, free, same⟩
      obtain ⟨rfl, rfl⟩ := List.cons.inj same
      exact ⟨rest, after, ⟨rfl, free⟩, rfl, rfl⟩

namespace Literal

theorem ext_letters {w w' : Literal} (same : w.letters = w'.letters) : w = w' := by
  obtain ⟨letters, value, spelled⟩ := w
  obtain ⟨letters', value', spelled'⟩ := w'
  obtain rfl : letters = letters' := same
  obtain rfl : value = value' := Option.some.inj
    ((int32?_eq_some_iff.2 spelled).symm.trans (int32?_eq_some_iff.2 spelled'))
  rfl

/-- A sign stands in front of a number alone. -/
theorem exists_cons (w : Literal) : ∃ c rest, w.letters = c :: rest ∧ '-' ∉ rest := by
  obtain ⟨c, rest, same, -, digits⟩ := w.spelled.exists_cons
  exact ⟨c, rest, same, dash_not_mem digits⟩

theorem divide_letters (w : Literal) : divide w.letters = none := by
  obtain ⟨c, rest, same, free⟩ := w.exists_cons
  rw [same, divide, cut_eq_none_iff.2 free, Option.map_none]

theorem gap_append_ne_nil (w : Literal) (gap : Gap) : gap.letters ++ w.letters ≠ [] := by
  obtain ⟨c, rest, same, -⟩ := w.exists_cons
  simp [same]

/-- The dash behind a number, and behind blanks after it, is the one that separates. -/
theorem divide_append (w : Literal) (gap : Gap) (after : List Char) :
    divide (w.letters ++ gap.letters ++ '-' :: after) =
      some (w.letters ++ gap.letters, after) := by
  obtain ⟨c, rest, same, free⟩ := w.exists_cons
  refine divide_eq_some_iff.2 ⟨c, rest ++ gap.letters, by rw [same, List.cons_append], ?_, rfl⟩
  intro dash
  rcases List.mem_append.1 dash with inside | blank
  · exact free inside
  · exact absurd (gap.blank '-' blank) (by decide)

end Literal

/-- A number and the blanks behind it are told apart, since a number ends with a digit. -/
theorem eq_of_append_gap {w w' : Literal} {gap gap' : Gap}
    (same : w.letters ++ gap.letters = w'.letters ++ gap'.letters) : w = w' ∧ gap = gap' := by
  obtain ⟨letters, blanks⟩ :=
    w.spelled.sharp.append_inj w'.spelled.sharp gap.blank gap'.blank same
  exact ⟨Literal.ext_letters letters, Gap.ext blanks⟩

theorem eq_of_gap_append {w w' : Literal} {gap gap' : Gap}
    (same : gap.letters ++ w.letters = gap'.letters ++ w'.letters) : gap = gap' ∧ w = w' := by
  obtain ⟨blanks, letters⟩ :=
    w.spelled.sharp.gap_append_inj w'.spelled.sharp gap.blank gap'.blank same
  exact ⟨Gap.ext blanks, Literal.ext_letters letters⟩

namespace Reading

/-- What a reading says stands before and behind the dash that separates. -/
def sides : Reading → Option (List Char × List Char)
  | count _ _ | single _ _ => none
  | onward first gap => some (first.letters ++ gap.letters, [])
  | between first gap gap' last =>
    some (first.letters ++ gap.letters, gap'.letters ++ last.letters)

theorem divide_text (r : Reading) : divide r.text = r.sides := by
  cases r with
  | count number digits =>
    rw [text, divide, cut_eq_none_iff.2 (dash_not_mem digits.2)]
    rfl
  | single number => exact number.divide_letters
  | onward first gap => exact first.divide_append gap []
  | between first gap gap' last => exact first.divide_append gap _

/-- A text has at most one reading. -/
theorem text_injective {r r' : Reading} (same : r.text = r'.text) : r = r' := by
  have divided : r.sides = r'.sides := by rw [← divide_text, same, divide_text]
  cases r with
  | count number =>
    cases r' with
    | count number' =>
      obtain rfl : number = number' := Literal.ext_letters (List.cons.inj same).2
      rfl
    | single number' unsigned => exact absurd (congrArg List.head? same).symm unsigned
    | onward | between => cases divided
  | single number unsigned =>
    cases r' with
    | count => exact absurd (congrArg List.head? same) unsigned
    | single number' =>
      obtain rfl : number = number' := Literal.ext_letters same
      rfl
    | onward | between => cases divided
  | onward first gap =>
    cases r' with
    | count | single => cases divided
    | onward first' gap' =>
      obtain ⟨front, -⟩ := Prod.mk.inj (Option.some.inj divided)
      obtain ⟨rfl, rfl⟩ := eq_of_append_gap front
      rfl
    | between first' gap' gap'' last =>
      obtain ⟨-, back⟩ := Prod.mk.inj (Option.some.inj divided)
      exact absurd back.symm (last.gap_append_ne_nil gap'')
  | between first gap gap' last =>
    cases r' with
    | count | single => cases divided
    | onward =>
      obtain ⟨-, back⟩ := Prod.mk.inj (Option.some.inj divided)
      exact absurd back (last.gap_append_ne_nil gap')
    | between =>
      obtain ⟨front, back⟩ := Prod.mk.inj (Option.some.inj divided)
      obtain ⟨rfl, rfl⟩ := eq_of_append_gap front
      obtain ⟨rfl, rfl⟩ := eq_of_gap_append back
      rfl

end Reading

/-- A dash with digits alone behind it. -/
def Counted (cs : List Char) : Prop := ∃ ds, cs = '-' :: ds ∧ Digits ds

theorem counted_iff {cs : List Char} :
    cs.head? = some '-' ∧ cs.tail ≠ [] ∧ cs.tail.all Char.isDigit ↔ Counted cs := by
  rw [List.all_eq_true]
  constructor
  · rintro ⟨head, digits⟩
    obtain ⟨ds, rfl⟩ := List.head?_eq_some_iff.1 head
    exact ⟨ds, rfl, digits⟩
  · rintro ⟨ds, rfl, digits⟩
    exact ⟨rfl, digits⟩

theorem not_counted_of_divide {cs : List Char} {sides : List Char × List Char}
    (divided : divide cs = some sides) : ¬ Counted cs := by
  rintro ⟨ds, rfl, digits⟩
  rw [divide, cut_eq_none_iff.2 (dash_not_mem digits.2)] at divided
  cases divided

theorem bounds?_of_counted {ds : List Char} (digits : Digits ds) :
    bounds? ('-' :: ds) = (word? ds).map fun last => (1, last) := by
  rw [bounds?, if_pos ⟨rfl, digits.1, List.all_eq_true.2 digits.2⟩]

theorem not_count_of_not_counted {c : Char} {cs : List Char} (uncounted : ¬ Counted (c :: cs)) :
    ¬ (c = '-' ∧ cs ≠ [] ∧ cs.all Char.isDigit) := by
  rintro ⟨rfl, digits⟩
  exact uncounted (counted_iff.1 ⟨rfl, digits⟩)

/-- The last position that the text behind a dash gives: the last of all, when there is none. -/
def lastOf? (after : List Char) : Option Int32 := if after = [] then some (-1) else word? after

theorem bounds?_of_divide {cs before after : List Char}
    (divided : divide cs = some (before, after)) :
    bounds? cs = do return (← word? before, ← lastOf? after) := by
  have uncounted := not_counted_of_divide divided
  cases cs with
  | nil => cases divided
  | cons c cs =>
    obtain ⟨⟨rest, after⟩, found, same⟩ := Option.map_eq_some_iff.1 divided
    obtain ⟨rfl, rfl⟩ := Prod.mk.inj same
    rw [bounds?, if_neg (not_count_of_not_counted uncounted), found, lastOf?]
    by_cases nothing : after = []
    · simp only [if_pos nothing]
    · simp only [if_neg nothing]

theorem bounds?_of_divide_eq_none {cs : List Char} (uncounted : ¬ Counted cs)
    (whole : divide cs = none) :
    bounds? cs = (word? cs).map fun position => (position, position) := by
  cases cs with
  | nil => rfl
  | cons c cs =>
    rw [bounds?, if_neg (not_count_of_not_counted uncounted), Option.map_eq_none_iff.1 whole]

theorem Literal.word?_eq (w : Literal) {cs : List Char} (trimmed : trim cs = w.letters) :
    word? cs = some w.value := by
  rw [word?, trimmed]
  exact int32?_eq_some_iff.2 w.spelled

/-- What has a reading is read. -/
theorem bounds?_text (r : Reading) : bounds? r.text = some r.bounds := by
  cases r with
  | count number digits =>
    rw [Reading.text, bounds?_of_counted digits, number.word?_eq number.spelled.sharp.trim_eq]
    rfl
  | single number unsigned =>
    have uncounted : ¬ Counted number.letters := by
      rintro ⟨ds, same, -⟩
      exact unsigned (by rw [same, List.head?_cons])
    rw [Reading.text, bounds?_of_divide_eq_none uncounted number.divide_letters,
      number.word?_eq number.spelled.sharp.trim_eq]
    rfl
  | onward first gap =>
    rw [Reading.text, bounds?_of_divide (first.divide_append gap []),
      first.word?_eq (first.spelled.sharp.trim_append gap.blank)]
    rfl
  | between first gap gap' last =>
    rw [Reading.text, bounds?_of_divide (first.divide_append gap _),
      first.word?_eq (first.spelled.sharp.trim_append gap.blank), lastOf?,
      if_neg (last.gap_append_ne_nil gap'),
      last.word?_eq (last.spelled.sharp.trim_gap_append gap'.blank)]
    rfl

/-- The number that a text is without the blanks around it. -/
theorem exists_literal {cs : List Char} {position : Int32} (word : word? cs = some position) :
    ∃ w : Literal, w.letters = trim cs ∧ w.value = position :=
  ⟨⟨trim cs, position, int32?_eq_some_iff.1 word⟩, rfl, rfl⟩

theorem exists_reading_of_divide {cs before after : List Char} {ends : Int32 × Int32}
    (sharp : Sharp cs) (divided : divide cs = some (before, after))
    (read : bounds? cs = some ends) : ∃ r : Reading, r.text = cs ∧ r.bounds = ends := by
  rw [bounds?_of_divide divided] at read
  obtain ⟨first, word, read⟩ := Option.bind_eq_some_iff.1 read
  obtain ⟨last, word', read⟩ := Option.bind_eq_some_iff.1 read
  obtain rfl : (first, last) = ends := Option.some.inj read
  obtain ⟨c, rest, front, -, rfl⟩ := divide_eq_some_iff.1 divided
  obtain ⟨⟨gap, blank, around⟩, gap', blank', around'⟩ := sharp.exists_gaps
  obtain ⟨w, letters, rfl⟩ := exists_literal word
  by_cases nothing : after = []
  · rw [lastOf?, if_pos nothing] at word'
    obtain rfl : -1 = last := Option.some.inj word'
    refine ⟨.onward w ⟨gap, blank⟩, ?_, rfl⟩
    rw [Reading.text, letters, ← around, nothing]
  · rw [lastOf?, if_neg nothing] at word'
    obtain ⟨w', letters', rfl⟩ := exists_literal word'
    refine ⟨.between w ⟨gap, blank⟩ ⟨gap', blank'⟩ w', ?_, rfl⟩
    rw [Reading.text, letters, letters', ← around, ← around']

/-- What is read has a reading. -/
theorem exists_reading {cs : List Char} {ends : Int32 × Int32} (sharp : Sharp cs)
    (read : bounds? cs = some ends) : ∃ r : Reading, r.text = cs ∧ r.bounds = ends := by
  by_cases counted : Counted cs
  · obtain ⟨ds, rfl, digits⟩ := counted
    rw [bounds?_of_counted digits] at read
    obtain ⟨last, word, rfl⟩ := Option.map_eq_some_iff.1 read
    rw [word?, trim_eq_self fun d mem => isBlank_of_isDigit (digits.2 d mem)] at word
    exact ⟨.count ⟨ds, last, int32?_eq_some_iff.1 word⟩ digits, rfl, rfl⟩
  · cases divided : divide cs with
    | none =>
      rw [bounds?_of_divide_eq_none counted divided] at read
      obtain ⟨w, word, rfl⟩ := Option.map_eq_some_iff.1 read
      rw [word?, sharp.trim_eq] at word
      have spelled : Spells cs w.toInt := int32?_eq_some_iff.1 word
      -- A single number with a dash as its sign would ask for the first words.
      have unsigned : cs.head? ≠ some '-' := by
        intro head
        obtain ⟨ds, rfl⟩ := List.head?_eq_some_iff.1 head
        exact counted ⟨ds, rfl, spelled.digits_of_dash⟩
      exact ⟨.single ⟨cs, w, spelled⟩ unsigned, rfl, rfl⟩
    | some sides => exact exists_reading_of_divide sharp divided read

theorem find?_indexed (here : Nat) (cs : List Char) :
    ((indexed here cs).find? fun place => place.2 = '-').map Prod.fst =
      (cut '-' cs).map fun sides => here + width Char.utf8Size sides.1 := by
  induction cs generalizing here with
  | nil => rfl
  | cons c cs ih =>
    by_cases dash : c = '-'
    · simp [indexed, cut, dash]
    · simp [indexed, cut, dash, ih, Function.comp_def, Nat.add_assoc]

theorem dash?_eq (cs : List Char) :
    dash? cs = (divide cs).map fun sides => width Char.utf8Size sides.1 := by
  cases cs with
  | nil => rfl
  | cons c cs =>
    rw [dash?, indexed, List.drop_succ_cons, List.drop_zero, find?_indexed, divide]
    simp [Function.comp_def]

/-- Characters meet in front of a dash and behind it, so a text can be cut there. -/
theorem slice_dash {text : String} {before after : List Char}
    (whole : text.toList = before ++ '-' :: after) :
    slice text ⟨0, width Char.utf8Size before⟩ = .ok (String.ofList before) ∧
      slice text ⟨width Char.utf8Size before + 1, text.utf8ByteSize⟩ =
        .ok (String.ofList after) := by
  have dash : '-'.utf8Size = 1 := by decide
  have front : text.toList = [] ++ before ++ '-' :: after := whole
  have back : text.toList = (before ++ ['-']) ++ after ++ [] := by simp [whole]
  have size : text.utf8ByteSize = width Char.utf8Size (before ++ ['-'] ++ after) := by
    rw [width_utf8Size, ← List.append_nil (before ++ ['-'] ++ after), ← back, String.ofList_toList]
  constructor
  · simpa using slice_width front
  · rw [size, width_append, ← slice_width back]
    simp [dash]

theorem boundsBytes?_eq (inner : String) : boundsBytes? inner = .ok (bounds? inner.toList) := by
  rw [boundsBytes?]
  by_cases counted : Counted inner.toList
  · obtain ⟨ds, same, digits⟩ := counted
    simp only [if_pos (counted_iff.2 ⟨ds, same, digits⟩)]
    rw [same, bounds?_of_counted digits]
    rfl
  · simp only [if_neg (mt counted_iff.1 counted), dash?_eq]
    cases divided : divide inner.toList with
    | none =>
      rw [bounds?_of_divide_eq_none counted divided]
      rfl
    | some sides =>
      obtain ⟨before, after⟩ := sides
      obtain ⟨c, rest, -, -, whole⟩ := divide_eq_some_iff.1 divided
      obtain ⟨front, back⟩ := slice_dash whole
      have last : lastOf? after = if String.ofList after = "" then some (-1) else word? after := by
        simp [lastOf?]
      simp only [bounds?_of_divide divided, Option.map_some, front, back, bind, Except.bind,
        String.toList_ofList, ← last]
      cases word? before with
      | none => rfl
      | some first => cases lastOf? after <;> rfl

theorem parseBytes?_eq (text : String) : parseBytes? text = .ok (parse text) := by
  rw [parseBytes?, boundsBytes?_eq, String.toList_ofList, parse]
  cases bounds? (trim (stripPair '[' ']' (trim text.toList))) <;> rfl

theorem ofBounds_eq (first last : Int32) :
    (∃ range, ofBounds first last = .ok range ∧ (range.first, range.last) = (first, last)) ∨
      ofBounds first last = .error (.wordBounds first last) := by
  by_cases valid : Valid first last
  · exact .inl ⟨⟨first, last, valid⟩, dif_pos valid, rfl⟩
  · exact .inr (dif_neg valid)

/-- A text says one thing inside its brackets, and this has at most one reading. The range of words
that the text gives is the one with the bounds of the reading, or none when they are not valid; and
a text without a reading gives none. No cut at a dash falls inside of a character. -/
theorem parse_eq_of_reading (text : String) :
    ∃ inner, (∀ cs, Inside '[' ']' text.toList cs ↔ cs = inner) ∧
      (∀ r r' : Reading, r.text = inner → r'.text = inner → r = r') ∧
      (∀ r : Reading, r.text = inner → parse text = ofBounds r.bounds.1 r.bounds.2 ∧
        ((∃ range, parse text = .ok range ∧ (range.first, range.last) = r.bounds) ∨
          parse text = .error (.wordBounds r.bounds.1 r.bounds.2))) ∧
      ((∀ r : Reading, r.text ≠ inner) → parse text = .error (.wordText text) ∧
        (Error.wordText text).message = "Parse error: Invalid word range \"" ++ text ++ "\"") ∧
      parseBytes? text = .ok (parse text) := by
  obtain ⟨inner, said⟩ : ∃ inner, inner = trim (stripPair '[' ']' (trim text.toList)) := ⟨_, rfl⟩
  have sharp : Sharp inner := said ▸ (core_trim _).sharp
  refine ⟨inner, fun cs => said ▸ inside_iff, fun r r' same same' => ?_, fun r same => ?_,
    fun unread => ⟨?_, rfl⟩, parseBytes?_eq text⟩
  · exact Reading.text_injective (same.trans same'.symm)
  · have read : parse text = ofBounds r.bounds.1 r.bounds.2 := by
      apply parse_of_bounds?
      rw [← said, ← same, bounds?_text]
    rw [read]
    exact ⟨rfl, ofBounds_eq r.bounds.1 r.bounds.2⟩
  · apply parse_of_bounds?_eq_none
    rw [← said, Option.eq_none_iff_forall_ne_some]
    intro ends read
    obtain ⟨r, same, -⟩ := exists_reading sharp read
    exact unread r same

/-- Blanks stand around the dash between two positions, the last of which has a dash as its sign. -/
theorem parse_eq_of_reading_blanks :
    ∃ r : Reading, r.text = "2 - -1".toList ∧ parse " [2 - -1] " = ofBounds 2 (-1) := by
  have said : trim (stripPair '[' ']' (trim " [2 - -1] ".toList)) = "2 - -1".toList := by decide
  have read : bounds? "2 - -1".toList = some (2, -1) := by decide
  obtain ⟨r, same, ends⟩ := exists_reading (said ▸ (core_trim _).sharp) read
  obtain ⟨inner, one, -, meaning, -⟩ := parse_eq_of_reading " [2 - -1] "
  obtain rfl : "2 - -1".toList = inner := (one _).1 (inside_iff.2 said.symm)
  refine ⟨r, same, ?_⟩
  rw [(meaning r same).1, ends]

end WordRange

end TreePattern
