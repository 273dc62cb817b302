import TreePattern.Proofs.Lexical
import TreePattern.Range.Word
/-!
A word range read back from its own text. Between the brackets stand one number or two with a dash
between them, and the reader finds that dash behind the first character, past the sign that may
stand there. A single negative number has no other dash than its sign, and that one asks for the
first words.
-/
namespace TreePattern

namespace Text

theorem isBlank_of_mem_signedDecimal {n : Int} {c : Char} (h : c ∈ signedDecimal n) :
    isBlank c = false := by
  rcases dash_or_isDigit_of_mem_signedDecimal h with rfl | digit
  · decide
  · exact isBlank_of_isDigit digit

theorem dash_not_mem {ds : List Char} (digits : ∀ d ∈ ds, d.isDigit) : '-' ∉ ds := fun h =>
  absurd (digits _ h) (by decide)

end Text

open Text

theorem toInt_neg_of_ne_minValue {w : Int32} (h : w ≠ Int32.minValue) : (-w).toInt = -w.toInt := by
  have low := w.minValue_le_toInt
  have high := w.toInt_lt
  have ne : w.toInt ≠ -2147483648 := fun same => h (Int32.toInt_inj.1 (same.trans (by decide)))
  rw [show Int32.minValue.toInt = -2147483648 by decide] at low
  rw [Int32.toInt_neg, Int.bmod_def]
  omega

namespace WordRange

/-- What stands between the brackets. -/
def body (r : WordRange) : List Char :=
  if r.first = r.last then signedDecimal r.first.toInt
  else signedDecimal r.first.toInt ++ '-' :: signedDecimal r.last.toInt

theorem toList_text (r : WordRange) : r.text.toList = '[' :: (r.body ++ [']']) := by
  unfold text body
  split <;> simp

theorem isBlank_of_mem_body {r : WordRange} {c : Char} (h : c ∈ r.body) : isBlank c = false := by
  unfold body at h
  split at h
  · exact isBlank_of_mem_signedDecimal h
  · rcases List.mem_append.1 h with first | rest
    · exact isBlank_of_mem_signedDecimal first
    · rcases List.mem_cons.1 rest with rfl | last
      · decide
      · exact isBlank_of_mem_signedDecimal last

theorem stripPair_text (r : WordRange) :
    trim (stripPair '[' ']' (trim r.text.toList)) = r.body := by
  have sharp : Sharp r.body := sharp_of_forall fun _ => isBlank_of_mem_body
  have said : Inside '[' ']' r.text.toList r.body := by
    rw [toList_text]
    exact inside_marked (by decide) (by decide) sharp
  exact (inside_iff.1 said).symm

theorem parse_of_bounds? {text : String} {first last : Int32}
    (read : bounds? (trim (stripPair '[' ']' (trim text.toList))) = some (first, last)) :
    parse text = ofBounds first last := by
  rw [parse, read]

theorem parse_of_bounds?_eq_none {text : String}
    (unread : bounds? (trim (stripPair '[' ']' (trim text.toList))) = none) :
    parse text = .error (.wordText text) := by
  rw [parse, unread]

theorem parse_text_of_some {r : WordRange} {first last : Int32}
    (read : bounds? r.body = some (first, last)) : parse r.text = ofBounds first last := by
  apply parse_of_bounds?
  rw [stripPair_text, read]

theorem parse_text_of_none {r : WordRange} (unread : bounds? r.body = none) :
    parse r.text = .error (.wordText r.text) := by
  apply parse_of_bounds?_eq_none
  rw [stripPair_text, unread]

@[simp] theorem word?_signedDecimal (n : Int) : word? (signedDecimal n) = int32OfInt? n := by
  rw [word?, trim_eq_self fun _ => isBlank_of_mem_signedDecimal, int32?_signedDecimal]

/-- The dash between two numbers is the one that the reader finds, whatever their signs. -/
theorem bounds?_between (first last : Int32) :
    bounds? (signedDecimal first.toInt ++ '-' :: signedDecimal last.toInt) = some (first, last) := by
  obtain ⟨c, ds, split, -, digits⟩ := exists_signedDecimal_eq_cons first.toInt
  obtain ⟨c', ds', split', -, -⟩ := exists_signedDecimal_eq_cons last.toInt
  have found : cut '-' (ds ++ '-' :: signedDecimal last.toInt) =
      some (ds, signedDecimal last.toInt) :=
    cut_eq_some_iff.2 ⟨rfl, dash_not_mem digits⟩
  have nonempty : signedDecimal last.toInt ≠ [] := by simp [split']
  -- Behind a leading sign there are not digits alone, so the text does not ask for first words.
  have dashed : (ds ++ '-' :: signedDecimal last.toInt).all Char.isDigit = false := by
    simp [show '-'.isDigit = false by decide]
  rw [split, List.cons_append, bounds?, if_neg (by simp [dashed]), found]
  simp [nonempty, ← split]

/-- A number without a sign stands for itself at both ends. -/
theorem bounds?_of_pos {w : Int32} (pos : 0 < w) :
    bounds? (signedDecimal w.toInt) = some (w, w) := by
  obtain ⟨c, ds, split, -, digits⟩ := exists_signedDecimal_eq_cons w.toInt
  have unsigned : c ≠ '-' := by
    rintro rfl
    have nonneg : 0 ≤ w.toInt := Int.le_of_lt (Int32.lt_iff_toInt_lt.1 pos)
    have head : '-' ∈ decimal w.toInt.toNat := by
      rw [← signedDecimal_of_nonneg nonneg, split]
      exact List.mem_cons_self
    exact dash_not_mem (fun _ => isDigit_of_mem_decimal) head
  rw [split, bounds?, if_neg fun h => unsigned h.1, cut_eq_none_iff.2 (dash_not_mem digits)]
  simp [← split]

/-- The sign of a negative number asks for as many words from the first one on. -/
theorem bounds?_of_neg {n : Int} (neg : n < 0) :
    bounds? (signedDecimal n) = (int32OfInt? (-n)).map fun last => (1, last) := by
  have digits : signedDecimal (-n) = decimal (-n).toNat := signedDecimal_of_nonneg (by omega)
  rw [signedDecimal_of_neg neg, bounds?, if_pos, word?_signedDecimal]
  rw [digits]
  exact ⟨rfl, decimal_ne_nil _, List.all_eq_true.2 fun _ => isDigit_of_mem_decimal⟩

/-- Two different ends are both written, and read back. -/
theorem parse_text_of_ne {r : WordRange} (ends : r.first ≠ r.last) : parse r.text = .ok r := by
  have read : bounds? r.body = some (r.first, r.last) := by
    rw [body, if_neg ends]
    exact bounds?_between ..
  rw [parse_text_of_some read, ofBounds_bounds]

/-- Equal ends are written as one number, which is read back if it has no sign. -/
theorem parse_text_of_pos {r : WordRange} (ends : r.first = r.last) (pos : 0 < r.first) :
    parse r.text = .ok r := by
  have read : bounds? r.body = some (r.first, r.last) := by
    rw [body, if_pos ends, bounds?_of_pos pos, ← ends]
  rw [parse_text_of_some read, ofBounds_bounds]

/-- Equal ends that count from the end are read as another range, from the first word on, and the
least number of all is not read, since it has no opposite. -/
theorem parse_text_of_neg {r : WordRange} (ends : r.first = r.last) (neg : r.first < 0) :
    if r.first = Int32.minValue then parse r.text = .error (.wordText r.text)
    else ∃ s, parse r.text = .ok s ∧ s.first = 1 ∧ s.last = -r.first := by
  have below : r.first.toInt < 0 := Int32.lt_iff_toInt_lt.1 neg
  have read : bounds? r.body = (int32OfInt? (-r.first.toInt)).map fun last => (1, last) := by
    rw [body, if_pos ends, bounds?_of_neg below]
  split
  · next least =>
    refine parse_text_of_none (read.trans ?_)
    rw [least]
    decide
  · next representable =>
    have opposite := toInt_neg_of_ne_minValue representable
    have above : 1 ≤ -r.first := by
      rw [Int32.le_iff_toInt_le, opposite, show (1 : Int32).toInt = 1 by decide]
      omega
    have valid : Valid 1 (-r.first) := by
      refine ⟨by decide, fun zero => ?_, fun _ => above⟩
      rw [zero] at above
      exact absurd above (by decide)
    rw [← opposite, int32OfInt?_toInt, Option.map_some] at read
    exact ⟨⟨1, -r.first, valid⟩, by rw [parse_text_of_some read, ofBounds, dif_pos valid], rfl, rfl⟩

theorem parse_text_ne_of_neg {r : WordRange} (ends : r.first = r.last) (neg : r.first < 0) :
    parse r.text ≠ .ok r := by
  intro back
  have other := parse_text_of_neg ends neg
  rw [back] at other
  split at other
  · cases other
  · obtain ⟨s, same, first, -⟩ := other
    cases same
    rw [first] at neg
    exact absurd neg (by decide)

theorem first_neg_or_pos (r : WordRange) : r.first < 0 ∨ 0 < r.first := by
  have nonzero : r.first.toInt ≠ 0 := fun zero => r.valid.1 (Int32.toInt_inj.1 zero)
  simp only [Int32.lt_iff_toInt_lt, Int32.toInt_zero]
  omega

/-- A range reads back from its text just if its ends differ or count from the first word. A range
of a single word that counts from the end, `-n`, reads as the first `n` words, or not at all when `n`
is too large for a position. -/
theorem parse_text_iff (r : WordRange) :
    (parse r.text = .ok r ↔ (r.first = r.last → 0 < r.first)) ∧
      (r.first = r.last → r.first < 0 →
        if r.first = Int32.minValue then parse r.text = .error (.wordText r.text)
        else ∃ s, parse r.text = .ok s ∧ s.first = 1 ∧ s.last = -r.first) := by
  refine ⟨⟨fun back ends => ?_, fun unsigned => ?_⟩, parse_text_of_neg⟩
  · rcases r.first_neg_or_pos with neg | pos
    · exact absurd back (parse_text_ne_of_neg ends neg)
    · exact pos
  · by_cases ends : r.first = r.last
    · exact parse_text_of_pos ends (unsigned ends)
    · exact parse_text_of_ne ends

/-- The last word but two is written as the first three words are. -/
theorem exists_parse_text_ne :
    ∃ r s : WordRange, r.first = -3 ∧ r.last = -3 ∧ r.text = "[-3]" ∧
      s.first = 1 ∧ s.last = 3 ∧ parse r.text = .ok s ∧ parse r.text ≠ .ok r := by
  let r : WordRange := ⟨-3, -3, by decide⟩
  let s : WordRange := ⟨1, 3, by decide⟩
  have read : bounds? r.body = some (s.first, s.last) := by decide
  have parsed : parse r.text = .ok s := by rw [parse_text_of_some read, ofBounds_bounds]
  exact ⟨r, s, rfl, rfl, by decide, rfl, rfl, parsed, parse_text_ne_of_neg rfl (by decide)⟩

end WordRange

end TreePattern
