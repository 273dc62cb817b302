import TreePattern.Proofs.Bytes
/-!
What a range of words extracts. Its positions are resolved to positions from the front, and it
extracts the stretch of text between the words there, or nothing when one of them is missing or they
are not in order. What it extracts has the words in between and no others. By bytes and machine
words it is the same, and nothing faults.
-/
namespace TreePattern

open Text

namespace WordRange

/-- The position from the front that a position stands for among `count` words. -/
def resolve (position : Int32) (count : Nat) : Int :=
  if 0 < position then position.toInt else count + 1 + position.toInt

theorem offset?_eq (position : Int32) (count : Nat) : offset? position count =
    if 1 ≤ resolve position count ∧ resolve position count ≤ count then
      some ((resolve position count).toNat - 1) else none := rfl

theorem offset?_eq_some_iff (position : Int32) (count index : Nat) :
    offset? position count = some index ↔ index < count ∧ resolve position count = index + 1 := by
  rw [offset?_eq]
  split
  · rw [Option.some.injEq]
    omega
  · simp only [reduceCtorEq, false_iff]
    omega

theorem offset?_eq_none_iff (position : Int32) (count : Nat) : offset? position count = none ↔
    ¬ (1 ≤ resolve position count ∧ resolve position count ≤ count) := by
  rw [offset?_eq]
  split <;> simp_all

/-- Positions from the same side are resolved in their order. -/
theorem signs_of_resolve_lt (r : WordRange) {count : Nat}
    (crossed : resolve r.last count < resolve r.first count) : 0 < r.first ↔ ¬ 0 < r.last := by
  by_contra same
  have ordered : r.first.toInt ≤ r.last.toInt :=
    Int32.le_iff_toInt_le.1 (r.valid.2.2 (by tauto))
  by_cases positive : 0 < r.first
  · rw [resolve, resolve, if_pos positive, if_pos (by tauto)] at crossed
    omega
  · rw [resolve, resolve, if_neg positive, if_neg (by tauto)] at crossed
    omega

variable {r : WordRange} {text part : String}

theorem extract?_eq_some_iff : r.extract? text = some part ↔
    ∃ first last, offset? r.first (Words.ofList text.toList).words.length = some first ∧
      offset? r.last (Words.ofList text.toList).words.length = some last ∧ first ≤ last ∧
      part = String.ofList (stretch (fromTo (Words.ofList text.toList).words first last)) := by
  simp only [extract?, fromTo, Option.bind_eq_bind, Option.bind_eq_some_iff,
    Option.ite_none_right_eq_some, pure, Option.some.injEq, eq_comm (a := part), exists_and_left]

theorem extract?_eq_none_iff (r : WordRange) (text : String) : r.extract? text = none ↔
    ¬ (1 ≤ resolve r.first (Words.ofList text.toList).words.length ∧
      resolve r.first (Words.ofList text.toList).words.length ≤
        (Words.ofList text.toList).words.length) ∨
    ¬ (1 ≤ resolve r.last (Words.ofList text.toList).words.length ∧
      resolve r.last (Words.ofList text.toList).words.length ≤
        (Words.ofList text.toList).words.length) ∨
    resolve r.last (Words.ofList text.toList).words.length <
      resolve r.first (Words.ofList text.toList).words.length := by
  rw [extract?]
  generalize (Words.ofList text.toList).words = words
  cases firstOffset : offset? r.first words.length with
  | none => exact iff_of_true rfl (.inl ((offset?_eq_none_iff ..).1 firstOffset))
  | some first =>
    cases lastOffset : offset? r.last words.length with
    | none => exact iff_of_true rfl (.inr (.inl ((offset?_eq_none_iff ..).1 lastOffset)))
    | some last =>
      rw [offset?_eq_some_iff] at firstOffset lastOffset
      simp only [Option.bind_eq_bind, Option.bind_some]
      by_cases order : first ≤ last
      · exact iff_of_false (by simp [order]) (by omega)
      · exact iff_of_true (if_neg order) (by omega)

/-- Ends that count from different sides may pass each other. -/
example : (⟨-1, 1, by decide⟩ : WordRange).extract? "one two" = none := by decide

theorem fromFront64_eq (position : Int32) {count : Nat} (few : count + 1 < 2 ^ 63) :
    ∃ p, fromFront64 position (Int64.ofNat count) = .ok p ∧ p.toInt = resolve position count := by
  rw [fromFront64, resolve]
  by_cases positive : 0 < position
  · refine ⟨position.toInt64, if_pos positive, ?_⟩
    rw [Int32.toInt_toInt64, if_pos positive]
  · have low := position.le_toInt
    have nonpos : position.toInt ≤ 0 := by
      rw [Int32.lt_iff_toInt_lt, show (0 : Int32).toInt = 0 from rfl] at positive
      omega
    have counted : (Int64.ofNat count).toInt = count := Int64.toInt_ofNat_of_lt (by omega)
    have one : (1 : Int64).toInt = 1 := rfl
    -- One is added to the count before the position, which is the sum that could be too large.
    obtain ⟨next, next_toInt⟩ := add64_of_bounds (a := Int64.ofNat count) (b := 1)
      (by omega) (by omega)
    obtain ⟨sum, sum_toInt⟩ := add64_of_bounds (a := Int64.ofNat count + 1)
      (b := position.toInt64) (by rw [Int32.toInt_toInt64]; omega)
      (by rw [Int32.toInt_toInt64]; omega)
    refine ⟨Int64.ofNat count + 1 + position.toInt64, ?_, ?_⟩
    · rw [if_neg positive, next]
      exact sum
    · rw [if_neg positive, sum_toInt, next_toInt, counted, one, Int32.toInt_toInt64]

theorem index64?_eq (position : Int32) {count : Nat} (few : count + 1 < 2 ^ 63) :
    index64? position count = .ok (offset? position count) := by
  have counted : (Int64.ofNat count).toInt = count := Int64.toInt_ofNat_of_lt (by omega)
  have largest : Int64.maxValue.toInt = 2 ^ 63 - 1 := rfl
  have one : (1 : Int64).toInt = 1 := rfl
  have minusOne : (-1 : Int64).toInt = -1 := rfl
  obtain ⟨p, computed, resolved⟩ := fromFront64_eq position few
  have outside : p < 1 ∨ Int64.ofNat count < p ↔ ¬ (1 ≤ p.toInt ∧ p.toInt ≤ count) := by
    rw [Int64.lt_iff_toInt_lt, Int64.lt_iff_toInt_lt, counted, one]
    omega
  rw [index64?, if_neg (by omega), computed, offset?_eq, ← resolved]
  change (if p < 1 ∨ Int64.ofNat count < p then pure none else _) = _
  by_cases inside : 1 ≤ p.toInt ∧ p.toInt ≤ count
  · obtain ⟨index, index_toInt⟩ := add64_of_bounds (a := p) (b := -1) (by omega) (by omega)
    have nonneg : 0 ≤ p + -1 := by
      rw [Int64.le_iff_toInt_le, index_toInt, minusOne, show (0 : Int64).toInt = 0 from rfl]
      omega
    rw [if_neg (by simpa only [outside, not_not] using inside), if_pos inside, index]
    simp only [bind, Except.bind, pure, Except.pure]
    rw [if_pos nonneg, index_toInt, minusOne,
      show (p.toInt + -1).toNat = p.toInt.toNat - 1 by omega]
  · rw [if_pos (outside.2 inside), if_neg inside]
    rfl

/-- A text that fits in memory has fewer words than a machine word counts. -/
theorem length_words_lt {text : String} (fits : text.utf8ByteSize < 2 ^ 63) :
    (Words.ofList text.toList).words.length + 1 < 2 ^ 63 := by
  have words := (Words.proper_ofList text.toList).two_mul_length_le
  rw [Words.toList_ofList] at words
  have chars : text.toList.length ≤ text.utf8ByteSize := by
    rw [← String.ofList_toList (s := text), ← width_utf8Size, String.toList_ofList]
    exact length_le_width Char.utf8Size_pos _
  omega

/-- The words from one to another are cut out by their bytes. -/
theorem slice_between (text : String) {first last : Nat} (order : first ≤ last)
    (inside : last < (Words.ofList text.toList).words.length) :
    ∃ a b, (byteSpans text)[first]? = some a ∧ (byteSpans text)[last]? = some b ∧
      slice text ⟨a.start, b.stop⟩ = .ok (String.ofList
        (stretch (fromTo (Words.ofList text.toList).words first last))) := by
  obtain ⟨before, after, cut, spans⟩ := (Words.ofList text.toList).exists_fromTo order inside
  have chosen : fromTo (Words.ofList text.toList).words first last ≠ [] :=
    fromTo_ne_nil order inside
  obtain ⟨a, head, start⟩ := head?_spansFrom Char.utf8Size
    (width Char.utf8Size before) chosen
  obtain ⟨b, final, stop⟩ := getLast?_spansFrom Char.utf8Size
    (width Char.utf8Size before) chosen
  rw [← spans, ← byteSpans_eq] at head final
  rw [Words.toList_ofList] at cut
  refine ⟨a, b, getElem?_of_head?_fromTo order head,
    getElem?_of_getLast?_fromTo order ?_ final, ?_⟩
  · rwa [byteSpans_eq, Words.spans, length_spansFrom]
  · rw [start, stop, slice_width cut]

/-- By bytes and machine words a range extracts the same words, without a fault. -/
theorem extractBytes?_eq (r : WordRange) {text : String} (fits : text.utf8ByteSize < 2 ^ 63) :
    r.extractBytes? text = .ok (r.extract? text) := by
  have few := length_words_lt fits
  have count : (byteSpans text).length = (Words.ofList text.toList).words.length := by
    rw [byteSpans_eq, Words.spans, length_spansFrom]
  rw [extractBytes?, count, index64?_eq r.first few, index64?_eq r.last few]
  simp only [bind, Except.bind, pure, Except.pure, extract?]
  cases firstOffset : offset? r.first (Words.ofList text.toList).words.length with
  | none => rfl
  | some first =>
    cases lastOffset : offset? r.last (Words.ofList text.toList).words.length with
    | none => rfl
    | some last =>
      simp only [Option.bind_some]
      by_cases order : first ≤ last
      · obtain ⟨a, b, atFirst, atLast, cut⟩ :=
          slice_between text order ((offset?_eq_some_iff ..).1 lastOffset).1
        rw [if_neg (by omega), if_pos order, atFirst, atLast]
        simp only [cut, fromTo]
      · rw [if_pos (by omega), if_neg order]

end WordRange

namespace Text

/-- A part of a text from one run to another, which holds the runs listed. -/
structure Between (text part : List Char) (a b : Span) (listed : List Span) : Prop where
  whole : part = (text.take b.stop).drop a.start
  head : ∃ c, part.head? = some c ∧ isSeparator c = false
  final : ∃ c, part.getLast? = some c ∧ isSeparator c = false
  runs : ∀ span, IsRun part span ↔ span.shift a.start ∈ listed

theorem IsRun.head {cs : List Char} {span : Span} (isRun : IsRun cs span) (front : span.start = 0) :
    ∃ c, cs.head? = some c ∧ isSeparator c = false := by
  obtain ⟨before, word, after, rfl, run, rfl⟩ := isRun
  obtain rfl := List.length_eq_zero_iff.1 front
  obtain ⟨c, word, rfl, inside⟩ := run.exists_cons
  exact ⟨c, rfl, inside⟩

theorem IsRun.final {cs : List Char} {span : Span} (isRun : IsRun cs span)
    (back : span.stop = cs.length) : ∃ c, cs.getLast? = some c ∧ isSeparator c = false := by
  obtain ⟨before, word, after, rfl, run, rfl⟩ := isRun
  have short : before.length + word.length = (before ++ word ++ after).length := back
  obtain rfl : after = [] := by
    apply List.length_eq_zero_iff.1
    simp only [List.length_append] at short
    omega
  refine ⟨word.getLast run.word_ne_nil, ?_, run.sharp _ (List.getLast_mem _)⟩
  rw [List.append_nil, List.getLast?_append_of_ne_nil _ run.word_ne_nil,
    List.getLast?_eq_getLast_of_ne_nil]

theorem between_stretch (text : List Char) {first last : Nat} (order : first ≤ last)
    (inside : last < (Words.ofList text).words.length) :
    ∃ a b, ((Words.ofList text).spans fun _ => 1)[first]? = some a ∧
      ((Words.ofList text).spans fun _ => 1)[last]? = some b ∧
      Between text (stretch (fromTo (Words.ofList text).words first last)) a b
        (fromTo ((Words.ofList text).spans fun _ => 1) first last) := by
  obtain ⟨before, after, cut, spans⟩ := (Words.ofList text).exists_fromTo order inside
  have isRun_iff := isRun_stretch_iff text order
  have chosen : fromTo (Words.ofList text).words first last ≠ [] :=
    fromTo_ne_nil order inside
  have found := spans fun _ => 1
  rw [width_one] at found
  generalize fromTo (Words.ofList text).words first last = words at *
  obtain ⟨a, head, start⟩ := head?_spansFrom (fun _ => 1) before.length chosen
  obtain ⟨b, final, stop⟩ := getLast?_spansFrom (fun _ => 1) before.length chosen
  refine ⟨a, b, getElem?_of_head?_fromTo order (found ▸ head),
    getElem?_of_getLast?_fromTo order (by rwa [Words.spans, length_spansFrom]) (found ▸ final),
    ?_, ?_, ?_, ?_⟩
  · rw [Words.toList_ofList] at cut
    rw [start, stop, width_one, cut, List.take_left' (by simp), List.drop_left' rfl]
  · obtain ⟨s, headHere, startHere⟩ := head?_spansFrom (fun _ => 1) 0 chosen
    exact ((isRun_iff s).2 (List.mem_of_head? headHere)).head startHere
  · obtain ⟨s, finalHere, stopHere⟩ := getLast?_spansFrom (fun _ => 1) 0 chosen
    apply ((isRun_iff s).2 (List.mem_of_getLast? finalHere)).final
    rw [stopHere, width_one, Nat.zero_add]
  · intro span
    have moved : spansFrom (fun _ => 1) before.length words =
        (spansFrom (fun _ => 1) 0 words).map (Span.shift before.length) :=
      spansFrom_add _ before.length 0 words
    rw [isRun_iff, found, start, moved, List.mem_map_of_injective (Span.shift_injective _)]

end Text

namespace WordRange

/-- Every word of a text. -/
def every : WordRange := ⟨1, -1, by decide⟩

/-- What a range extracts starts and ends with words, so all of its words are all of it. -/
theorem every_extract?_stretch (text : List Char) {first last : Nat} (order : first ≤ last)
    (inside : last < (Words.ofList text).words.length) :
    every.extract? (String.ofList
      (stretch (fromTo (Words.ofList text).words first last))) =
        some (String.ofList (stretch (fromTo (Words.ofList text).words first last))) := by
  have cut := Words.ofList_stretch text order
  have chosen : 0 < (fromTo (Words.ofList text).words first last).length :=
    List.length_pos_iff.2 (fromTo_ne_nil order inside)
  generalize fromTo (Words.ofList text).words first last = words at *
  refine extract?_eq_some_iff.2 ⟨0, words.length - 1, ?_, ?_, by omega, ?_⟩
  · rw [String.toList_ofList, cut, length_sealed, offset?_eq_some_iff]
    exact ⟨chosen, rfl⟩
  · rw [String.toList_ofList, cut, length_sealed, offset?_eq_some_iff]
    have fromEnd : resolve every.last words.length = words.length + 1 + -1 := rfl
    omega
  · rw [String.toList_ofList, cut, fromTo, Nat.sub_add_cancel chosen, List.drop_zero,
      ← length_sealed, List.take_length, stretch_sealed]

end WordRange

open WordRange in
/-- A text has runs in an order, and a range of words extracts what lies between two of them, from
the first character of one to the last of the other, or nothing if its positions are not in the text
or not in order, which they are when they count from the same side. The same is extracted by bytes,
and no sum of positions overflows. -/
theorem extract_selects_runs (r : WordRange) (text : String) :
    ∃ (runs : List Span) (first last : Int),
      (runs.Pairwise (fun a b => a.stop < b.start) ∧
        ∀ span, span ∈ runs ↔ IsRun text.toList span) ∧
      first = resolve r.first runs.length ∧ last = resolve r.last runs.length ∧
      (r.extract? text = none ↔ ¬ (1 ≤ first ∧ first ≤ runs.length) ∨
        ¬ (1 ≤ last ∧ last ≤ runs.length) ∨ last < first) ∧
      (last < first → (0 < r.first ↔ ¬ 0 < r.last)) ∧
      (∀ part, r.extract? text = some part →
        (∃ a b, runs[first.toNat - 1]? = some a ∧ runs[last.toNat - 1]? = some b ∧
          Between text.toList part.toList a b ((runs.take last.toNat).drop (first.toNat - 1))) ∧
        ofBounds 1 (-1) = .ok every ∧ every.extract? part = some part) ∧
      (text.utf8ByteSize < 2 ^ 63 → r.extractBytes? text = .ok (r.extract? text)) := by
  have proper := Words.proper_ofList text.toList
  have length : ((Words.ofList text.toList).spans fun _ => 1).length =
      (Words.ofList text.toList).words.length := length_spansFrom _ _ _
  refine ⟨(Words.ofList text.toList).spans fun _ => 1, _, _,
    ⟨proper.pairwise_spans, fun span => ?_⟩, rfl, rfl, ?_, r.signs_of_resolve_lt, ?_,
    r.extractBytes?_eq⟩
  · rw [proper.mem_spans_iff, Words.toList_ofList]
  · rw [length]
    exact extract?_eq_none_iff r text
  · intro part found
    obtain ⟨first, last, atFirst, atLast, order, rfl⟩ := extract?_eq_some_iff.1 found
    rw [offset?_eq_some_iff] at atFirst atLast
    rw [length, atFirst.2, atLast.2, String.toList_ofList]
    exact ⟨between_stretch text.toList order atLast.1, rfl,
      every_extract?_stretch text.toList order atLast.1⟩

/-- Letters of two and four bytes, and ends counted from both sides. -/
theorem extract_selects_runs_accents :
    ("aé ü-𝒫x; b".utf8ByteSize < 2 ^ 63) ∧
    (⟨2, -1, by decide⟩ : WordRange).extractBytes? "aé ü-𝒫x; b" = .ok (some "ü-𝒫x; b") := by
  have fits : "aé ü-𝒫x; b".utf8ByteSize < 2 ^ 63 := by decide
  obtain ⟨-, -, -, -, -, -, -, -, -, bytes⟩ :=
    extract_selects_runs ⟨2, -1, by decide⟩ "aé ü-𝒫x; b"
  refine ⟨fits, ?_⟩
  rw [bytes fits]
  decide

end TreePattern
