import TreePattern.Text.Span
import Mathlib.Data.List.Basic
import Mathlib.Data.List.Induction
/-!
The words of a text are its runs: the longest stretches without a separator. A text has one cut into
separators and runs, so the words of a cut text are known by their letters and the gaps after them,
and where they stand by the width of what comes before, be it in characters or in bytes.
-/
namespace TreePattern.Text

/-- A stretch between two others is a run: it is not empty, holds no separator, and has separators
or an end of the text on both sides. -/
structure Run (before word after : List Char) : Prop where
  word_ne_nil : word ≠ []
  sharp : ∀ c ∈ word, isSeparator c = false
  left : ∀ c, before.getLast? = some c → isSeparator c
  right : ∀ c, after.head? = some c → isSeparator c

/-- A span of characters in which a text has a run. -/
def IsRun (cs : List Char) (span : Span) : Prop :=
  ∃ before word after, cs = before ++ word ++ after ∧ Run before word after ∧
    span = ⟨before.length, before.length + word.length⟩

namespace Words

/-- Separators in front, then words, each of letters alone, with separators between any two. -/
inductive Proper : Words → Prop where
  | last {lead : List Char} : (∀ c ∈ lead, isSeparator c) → Proper ⟨lead, []⟩
  | word {lead letters gap : List Char} {rest : List Word} : (∀ c ∈ lead, isSeparator c) →
      letters ≠ [] → (∀ c ∈ letters, isSeparator c = false) → (gap = [] → rest = []) →
      Proper ⟨gap, rest⟩ → Proper ⟨lead, ⟨letters, gap⟩ :: rest⟩

theorem Proper.cons {text : Words} (proper : text.Proper) (c : Char) : (text.cons c).Proper := by
  by_cases separates : isSeparator c
  · cases proper with
    | last lead =>
      rw [cons_separator separates]
      exact .last (List.forall_mem_cons.2 ⟨separates, lead⟩)
    | word lead nonempty sharp apart behind =>
      rw [cons_separator separates]
      exact .word (List.forall_mem_cons.2 ⟨separates, lead⟩) nonempty sharp apart behind
  · have inside : isSeparator c = false := by simpa using separates
    have single : ∀ d ∈ [c], isSeparator d = false := by simpa using inside
    cases proper with
    | last lead =>
      rw [cons_word inside fun _ => rfl]
      exact .word (by simp) (by simp) single (fun _ => rfl) (.last lead)
    | @word lead letters gap rest separate nonempty sharp apart behind =>
      cases lead with
      | nil =>
        rw [cons_letter inside]
        exact .word (by simp) (by simp) (List.forall_mem_cons.2 ⟨inside, sharp⟩) apart behind
      | cons d lead =>
        rw [cons_word inside (by simp)]
        exact .word (by simp) (by simp) single (by simp)
          (.word separate nonempty sharp apart behind)

theorem proper_ofList (cs : List Char) : (ofList cs).Proper := by
  induction cs with
  | nil => exact .last (by simp)
  | cons c cs ih => exact ih.cons c

theorem foldr_cons_lead {lead : List Char} (separate : ∀ c ∈ lead, isSeparator c)
    (words : List Word) : lead.foldr cons ⟨[], words⟩ = ⟨lead, words⟩ := by
  induction lead with
  | nil => rfl
  | cons c lead ih =>
    obtain ⟨head, tail⟩ := List.forall_mem_cons.1 separate
    rw [List.foldr_cons, ih tail, cons_separator head]

theorem foldr_cons_letters {letters gap : List Char} {rest : List Word} (nonempty : letters ≠ [])
    (sharp : ∀ c ∈ letters, isSeparator c = false) (apart : gap = [] → rest = []) :
    letters.foldr cons ⟨gap, rest⟩ = ⟨[], ⟨letters, gap⟩ :: rest⟩ := by
  induction letters with
  | nil => exact absurd rfl nonempty
  | cons c letters ih =>
    obtain ⟨head, tail⟩ := List.forall_mem_cons.1 sharp
    rw [List.foldr_cons]
    cases letters with
    | nil => exact cons_word head apart
    | cons d letters => rw [ih (by simp) tail, cons_letter head]

theorem toList_cons_word (lead letters gap : List Char) (rest : List Word) :
    toList ⟨lead, ⟨letters, gap⟩ :: rest⟩ = lead ++ (letters ++ toList ⟨gap, rest⟩) := by
  simp [toList]

/-- A text has only one cut. -/
theorem Proper.ofList_toList {text : Words} (proper : text.Proper) : ofList text.toList = text := by
  induction proper with
  | last lead => simpa [toList, ofList] using foldr_cons_lead lead []
  | word lead nonempty sharp apart _ ih =>
    rw [toList_cons_word, ofList, List.foldr_append, List.foldr_append, ← ofList, ih,
      foldr_cons_letters nonempty sharp apart, foldr_cons_lead lead]

end Words

/-- The width of a stretch of text, when each character has its own. -/
def width (weight : Char → Nat) : List Char → Nat
  | [] => 0
  | c :: cs => weight c + width weight cs

section Width

variable (weight : Char → Nat)

@[simp] theorem width_nil : width weight [] = 0 := rfl

@[simp] theorem width_cons (c : Char) (cs : List Char) :
    width weight (c :: cs) = weight c + width weight cs := rfl

@[simp] theorem width_append (cs ds : List Char) :
    width weight (cs ++ ds) = width weight cs + width weight ds := by
  induction cs with
  | nil => simp
  | cons c cs ih => simp [ih, Nat.add_assoc]

@[simp] theorem width_one (cs : List Char) : width (fun _ => 1) cs = cs.length := by
  induction cs with
  | nil => rfl
  | cons c cs ih => rw [width_cons, ih, List.length_cons, Nat.add_comm]

theorem width_utf8Size (cs : List Char) :
    width Char.utf8Size cs = (String.ofList cs).utf8ByteSize := by
  induction cs with
  | nil => rfl
  | cons c cs ih =>
    rw [← List.singleton_append, String.ofList_append, String.utf8ByteSize_append, width_append, ih]
    simp

theorem length_le_width {weight : Char → Nat} (pos : ∀ c, 0 < weight c) (cs : List Char) :
    cs.length ≤ width weight cs := by
  induction cs with
  | nil => exact Nat.le_refl 0
  | cons c cs ih =>
    have weighs := pos c
    rw [width_cons, List.length_cons]
    omega

end Width

theorem Span.shift_injective (k : Nat) : Function.Injective (Span.shift k) := by
  rintro ⟨start, stop⟩ ⟨start', stop'⟩ same
  obtain ⟨starts, stops⟩ := Span.mk.inj same
  obtain rfl := Nat.add_left_cancel starts
  obtain rfl := Nat.add_left_cancel stops
  rfl

/-- Where words stand that follow each other from a position on. -/
def spansFrom (weight : Char → Nat) : Nat → List Word → List Span
  | _, [] => []
  | start, word :: rest =>
    ⟨start, start + width weight word.letters⟩ ::
      spansFrom weight (start + width weight (word.letters ++ word.gap)) rest

/-- Where the words of a text stand. -/
def Words.spans (weight : Char → Nat) (text : Words) : List Span :=
  spansFrom weight (width weight text.lead) text.words

theorem stretch_cons (word : Word) {rest : List Word} (more : rest ≠ []) :
    stretch (word :: rest) = word.letters ++ word.gap ++ stretch rest := by
  cases rest with
  | nil => exact absurd rfl more
  | cons next rest => rfl

section Spans

variable (weight : Char → Nat)

@[simp] theorem length_spansFrom (start : Nat) (words : List Word) :
    (spansFrom weight start words).length = words.length := by
  induction words generalizing start with
  | nil => rfl
  | cons word rest ih => simp [spansFrom, ih]

theorem spansFrom_append (start : Nat) (words rest : List Word) :
    spansFrom weight start (words ++ rest) = spansFrom weight start words ++
      spansFrom weight (start + width weight (Words.toList ⟨[], words⟩)) rest := by
  induction words generalizing start with
  | nil => simp [spansFrom, Words.toList]
  | cons word words ih => simp [spansFrom, Words.toList, ih, Nat.add_assoc]

theorem spansFrom_add (k start : Nat) (words : List Word) :
    spansFrom weight (k + start) words = (spansFrom weight start words).map (Span.shift k) := by
  induction words generalizing start with
  | nil => rfl
  | cons word rest ih =>
    simp only [spansFrom, List.map_cons, Span.shift, Nat.add_assoc, ih]

theorem head?_spansFrom (start : Nat) {words : List Word} (nonempty : words ≠ []) :
    ∃ span, (spansFrom weight start words).head? = some span ∧ span.start = start := by
  cases words with
  | nil => exact absurd rfl nonempty
  | cons word rest => exact ⟨_, rfl, rfl⟩

theorem getLast?_spansFrom (start : Nat) {words : List Word} (nonempty : words ≠ []) :
    ∃ span, (spansFrom weight start words).getLast? = some span ∧
      span.stop = start + width weight (stretch words) := by
  induction words generalizing start with
  | nil => exact absurd rfl nonempty
  | cons word rest ih =>
    cases rest with
    | nil => exact ⟨_, rfl, rfl⟩
    | cons next rest =>
      obtain ⟨span, found, stop⟩ := ih (start + width weight (word.letters ++ word.gap)) (by simp)
      refine ⟨span, ?_, ?_⟩
      · rw [spansFrom, List.getLast?_cons, found]
        rfl
      · rw [stop, stretch_cons word (List.cons_ne_nil next rest),
          width_append weight (word.letters ++ word.gap), Nat.add_assoc]

end Spans

/-- The words with nothing after the last of them. -/
def sealed : List Word → List Word
  | [] => []
  | [word] => [⟨word.letters, []⟩]
  | word :: rest => word :: sealed rest

theorem toList_sealed (words : List Word) : Words.toList ⟨[], sealed words⟩ = stretch words := by
  induction words with
  | nil => rfl
  | cons word rest ih =>
    cases rest with
    | nil => simp [sealed, stretch, Words.toList]
    | cons next rest => simpa [sealed, stretch, Words.toList] using ih

theorem spansFrom_sealed (weight : Char → Nat) (start : Nat) (words : List Word) :
    spansFrom weight start (sealed words) = spansFrom weight start words := by
  induction words generalizing start with
  | nil => rfl
  | cons word rest ih =>
    cases rest with
    | nil => rfl
    | cons next rest =>
      simp only [sealed, spansFrom] at ih ⊢
      rw [ih]

namespace Words.Proper

theorem separate_lead {lead : List Char} {words : List Word} (proper : Proper ⟨lead, words⟩) :
    ∀ c ∈ lead, isSeparator c := by
  cases proper with
  | last lead => exact lead
  | word lead => exact lead

theorem relead {lead lead' : List Char} {words : List Word} (proper : Proper ⟨lead, words⟩)
    (separate : ∀ c ∈ lead', isSeparator c) : Proper ⟨lead', words⟩ := by
  cases proper with
  | last _ => exact .last separate
  | word _ nonempty sharp apart behind => exact .word separate nonempty sharp apart behind

/-- Words at the end of a text, by themselves. -/
theorem behind {lead : List Char} (front : List Word) {words : List Word}
    (proper : Proper ⟨lead, front ++ words⟩) : Proper ⟨[], words⟩ := by
  induction front generalizing lead with
  | nil => exact proper.relead (by simp)
  | cons word front ih =>
    cases proper with
    | word _ _ _ _ behind => exact ih behind

/-- Words at the start of a text, with nothing after the last of them. -/
theorem sealed {lead : List Char} {words : List Word} (rest : List Word)
    (proper : Proper ⟨lead, words ++ rest⟩) : Proper ⟨lead, sealed words⟩ := by
  induction words generalizing lead with
  | nil => exact .last proper.separate_lead
  | cons word words ih =>
    cases proper with
    | word separate nonempty sharp apart behind =>
      cases words with
      | nil => exact .word separate nonempty sharp (fun _ => rfl) (.last (by simp))
      | cons next words =>
        exact .word separate nonempty sharp (fun empty => absurd (apart empty) (by simp))
          (ih behind)

/-- A text is long enough for its words and a separator between any two of them. -/
theorem two_mul_length_le {text : Words} (proper : text.Proper) :
    2 * text.words.length + text.lead.length ≤ text.toList.length + 1 := by
  induction proper with
  | last => simp [toList]
  | @word lead letters gap rest _ nonempty _ apart _ ih =>
    have some_letter := List.length_pos_iff.2 nonempty
    rw [toList_cons_word]
    simp only [List.length_append, List.length_cons] at ih ⊢
    by_cases empty : gap = []
    · simp only [apart empty, List.length_nil]
      omega
    · have some_gap := List.length_pos_iff.2 empty
      omega

/-- What comes after a word starts with a separator, if anything comes. -/
theorem separator_of_head? {gap : List Char} {rest : List Word} (apart : gap = [] → rest = [])
    (proper : Proper ⟨gap, rest⟩) {c : Char} (head : (toList ⟨gap, rest⟩).head? = some c) :
    isSeparator c := by
  cases gap with
  | nil => simp [toList, apart rfl] at head
  | cons d gap =>
    obtain rfl : d = c := by simpa [toList] using head
    exact proper.separate_lead d (by simp)

end Words.Proper

namespace Run

variable {before word after : List Char}

theorem exists_cons (run : Run before word after) :
    ∃ c rest, word = c :: rest ∧ isSeparator c = false := by
  obtain ⟨c, rest, rfl⟩ := List.exists_cons_of_ne_nil run.word_ne_nil
  exact ⟨c, rest, rfl, run.sharp c (List.mem_cons_self ..)⟩

/-- A run is all of the text up to the next separator. -/
theorem takeWhile_eq (run : Run before word after) :
    (word ++ after).takeWhile (fun c => !isSeparator c) = word := by
  rw [List.takeWhile_append_of_pos fun c mem => by simp [run.sharp c mem]]
  cases after with
  | nil => simp
  | cons c after => simp [run.right c rfl]

end Run

theorem run_unique {before word after before' word' after' : List Char}
    (run : Run before word after) (run' : Run before' word' after')
    (same : word ++ after = word' ++ after') : word = word' := by
  rw [← run.takeWhile_eq, same, run'.takeWhile_eq]

namespace Words

/-- A text without a word has no run. -/
theorem not_isRun_of_separate {cs : List Char} (separate : ∀ c ∈ cs, isSeparator c)
    (span : Span) : ¬ IsRun cs span := by
  rintro ⟨before, word, after, rfl, run, -⟩
  obtain ⟨c, rest, rfl, inside⟩ := run.exists_cons
  simp [separate c (by simp)] at inside

end Words

/-- A text that starts with separators and a run, and goes on with a separator if at all, has that
run and the runs of what comes after it. -/
theorem isRun_append_iff {lead letters rest : List Char} (separate : ∀ c ∈ lead, isSeparator c)
    (nonempty : letters ≠ []) (sharp : ∀ c ∈ letters, isSeparator c = false)
    (behind : ∀ c, rest.head? = some c → isSeparator c) (span : Span) :
    IsRun (lead ++ (letters ++ rest)) span ↔
      span = ⟨lead.length, lead.length + letters.length⟩ ∨
        ∃ s, IsRun rest s ∧ span = s.shift (lead.length + letters.length) := by
  have front : Run lead letters rest :=
    ⟨nonempty, sharp, fun c last => separate c (List.mem_of_getLast? last), behind⟩
  constructor
  · rintro ⟨before, word, after, cut, run, rfl⟩
    have together (same : word ++ after = letters ++ rest) : word = letters :=
      run_unique run front same
    rw [List.append_assoc, List.append_eq_append_iff] at cut
    obtain ⟨x, rfl, cut⟩ | ⟨x, rfl, cut⟩ := cut
    · rw [List.append_eq_append_iff] at cut
      obtain ⟨y, rfl, rfl⟩ | ⟨y, rfl, cut⟩ := cut
      · refine .inr ⟨_, ⟨y, word, after, by simp,
          ⟨run.word_ne_nil, run.sharp, ?_, run.right⟩, rfl⟩, ?_⟩
        · exact fun c last => run.left c (by simp [last])
        · simp [Span.shift, Nat.add_assoc]
      · -- A run cannot start inside a word, since the letter before it separates nothing.
        cases x using List.reverseRecOn with
        | nil => simp [together (by simpa using cut)]
        | append_singleton x c =>
          have inside := sharp c (by simp)
          simp [run.left c (by simp)] at inside
    · cases x with
      | nil => simp [together (by simpa using cut)]
      | cons c x =>
        obtain ⟨d, word, rfl, inside⟩ := run.exists_cons
        obtain rfl : d = c := (List.cons_eq_cons.1 cut).1
        simp [separate d (by simp)] at inside
  · rintro (rfl | ⟨s, ⟨before, word, after, rfl, run, rfl⟩, rfl⟩)
    · exact ⟨lead, letters, rest, by simp, front, rfl⟩
    · refine ⟨lead ++ letters ++ before, word, after, by simp,
        ⟨run.word_ne_nil, run.sharp, fun c last => ?_, run.right⟩,
        by simp [Span.shift, Nat.add_assoc]⟩
      cases before using List.reverseRecOn with
      | nil =>
        obtain ⟨d, word, rfl, inside⟩ := run.exists_cons
        simp [behind d (by simp)] at inside
      | append_singleton before d => exact run.left c (by simpa using last)

/-- The words of a cut text are its runs. -/
theorem Words.Proper.mem_spans_iff {text : Words} (proper : text.Proper) (span : Span) :
    span ∈ text.spans (fun _ => 1) ↔ IsRun text.toList span := by
  induction proper generalizing span with
  | last separate =>
    simpa [Words.spans, spansFrom, Words.toList] using not_isRun_of_separate separate span
  | @word lead letters gap rest separate nonempty sharp apart behind ih =>
    rw [toList_cons_word,
      isRun_append_iff separate nonempty sharp fun _ => separator_of_head? apart behind]
    simp only [Words.spans, spansFrom, width_one, List.mem_cons, ← ih, List.length_append,
      ← Nat.add_assoc lead.length, spansFrom_add _ _ gap.length, List.mem_map]
    exact or_congr_right (exists_congr fun s => and_congr_right fun _ => eq_comm)

theorem le_of_mem_spansFrom {weight : Char → Nat} {start : Nat} {words : List Word} {span : Span}
    (mem : span ∈ spansFrom weight start words) : start ≤ span.start := by
  obtain ⟨s, -, rfl⟩ := List.mem_map.1 (spansFrom_add weight start 0 words ▸ mem)
  exact Nat.le_add_right start s.start

/-- The words of a text follow each other, with something between them. -/
theorem Words.Proper.pairwise_spans {text : Words} (proper : text.Proper) :
    (text.spans fun _ => 1).Pairwise fun a b => a.stop < b.start := by
  induction proper with
  | last => exact .nil
  | @word lead letters gap rest _ _ _ apart _ ih =>
    simp only [Words.spans, spansFrom, width_one, List.length_append] at ih ⊢
    rw [← Nat.add_assoc]
    refine .cons (fun span mem => ?_) ?_
    · have far := le_of_mem_spansFrom mem
      have some_gap : 0 < gap.length := by
        apply List.length_pos_iff.2
        intro empty
        simp [apart empty, spansFrom] at mem
      show lead.length + letters.length < span.start
      omega
    · rw [spansFrom_add]
      exact ih.map _ fun a b before => Nat.add_lt_add_left before _

namespace Words

theorem toList_append (lead : List Char) (words rest : List Word) :
    toList ⟨lead, words ++ rest⟩ = toList ⟨lead, words⟩ ++ toList ⟨[], rest⟩ := by
  simp [toList]

theorem exists_toList_eq_stretch_append (words : List Word) :
    ∃ gap, toList ⟨[], words⟩ = stretch words ++ gap := by
  induction words with
  | nil => exact ⟨[], rfl⟩
  | cons word rest ih =>
    cases rest with
    | nil => exact ⟨word.gap, by simp [toList, stretch]⟩
    | cons next rest =>
      obtain ⟨gap, same⟩ := ih
      refine ⟨gap, ?_⟩
      rw [stretch_cons word (List.cons_ne_nil next rest), List.append_assoc, ← same]
      simp [toList]

/-- The words from one to another, with what comes before and behind them. -/
theorem exists_stretch (lead : List Char) (front chosen rest : List Word) : ∃ before after,
    toList ⟨lead, front ++ (chosen ++ rest)⟩ = before ++ stretch chosen ++ after ∧
    ∀ weight, spans weight ⟨lead, front ++ (chosen ++ rest)⟩ =
      spansFrom weight (width weight lead) front ++
        (spansFrom weight (width weight before) chosen ++
          spansFrom weight (width weight before + width weight (toList ⟨[], chosen⟩)) rest) := by
  obtain ⟨gap, same⟩ := exists_toList_eq_stretch_append chosen
  refine ⟨toList ⟨lead, front⟩, gap ++ toList ⟨[], rest⟩, ?_, fun weight => ?_⟩
  · rw [toList_append, toList_append, same]
    simp
  · rw [spans, spansFrom_append, spansFrom_append, ← width_append]
    rfl

end Words

/-- The members of a list from one position to another. -/
def fromTo {α : Type} (xs : List α) (first last : Nat) : List α := (xs.take (last + 1)).drop first

section FromTo

variable {α : Type} {xs : List α} {first last : Nat}

theorem length_fromTo (inside : last < xs.length) :
    (fromTo xs first last).length = last + 1 - first := by
  rw [fromTo, List.length_drop, List.length_take, Nat.min_eq_left inside]

theorem fromTo_ne_nil (order : first ≤ last) (inside : last < xs.length) :
    fromTo xs first last ≠ [] := by
  rw [← List.length_pos_iff, length_fromTo inside]
  omega

theorem take_append_fromTo (order : first ≤ last) :
    xs.take first ++ (fromTo xs first last ++ xs.drop (last + 1)) = xs := by
  have front : xs.take first = (xs.take (last + 1)).take first := by
    rw [List.take_take, Nat.min_eq_left (by omega)]
  rw [fromTo, ← List.append_assoc, front, List.take_append_drop, List.take_append_drop]

theorem fromTo_append {front chosen rest : List α} (first_eq : front.length = first)
    (last_eq : front.length + chosen.length = last + 1) :
    fromTo (front ++ (chosen ++ rest)) first last = chosen := by
  rw [fromTo, ← List.append_assoc, List.take_left' (by rw [List.length_append, last_eq]),
    List.drop_left' first_eq]

theorem getElem?_of_head?_fromTo (order : first ≤ last) {x : α}
    (found : (fromTo xs first last).head? = some x) : xs[first]? = some x := by
  rwa [fromTo, List.head?_drop, List.getElem?_take_of_lt (by omega)] at found

theorem getElem?_of_getLast?_fromTo (order : first ≤ last) (inside : last < xs.length) {x : α}
    (found : (fromTo xs first last).getLast? = some x) : xs[last]? = some x := by
  have long : ¬ (xs.take (last + 1)).length ≤ first := by
    rw [List.length_take]
    omega
  rw [List.getElem?_eq_getElem inside]
  rwa [fromTo, List.getLast?_drop, if_neg long, List.getLast?_take, if_neg (Nat.succ_ne_zero last),
    Nat.add_sub_cancel, List.getElem?_eq_getElem inside, Option.some_or] at found

end FromTo

/-- The words of a text from one to another, with what comes before and behind them. -/
theorem Words.exists_fromTo (text : Words) {first last : Nat} (order : first ≤ last)
    (inside : last < text.words.length) : ∃ before after,
      text.toList = before ++ stretch (fromTo text.words first last) ++ after ∧
      ∀ weight, fromTo (text.spans weight) first last =
        spansFrom weight (width weight before) (fromTo text.words first last) := by
  obtain ⟨lead, words⟩ := text
  obtain ⟨before, after, same, spans⟩ := exists_stretch lead (words.take first)
    (fromTo words first last) (words.drop (last + 1))
  rw [take_append_fromTo order] at same spans
  refine ⟨before, after, same, fun weight => ?_⟩
  have short : first ≤ words.length := Nat.le_of_lt (Nat.lt_of_le_of_lt order inside)
  rw [spans]
  apply fromTo_append
  · rw [length_spansFrom, List.length_take, Nat.min_eq_left short]
  · rw [length_spansFrom, length_spansFrom, List.length_take, Nat.min_eq_left short,
      length_fromTo inside]
    omega

theorem length_sealed (words : List Word) : (sealed words).length = words.length := by
  rw [← length_spansFrom (fun _ => 1) 0, spansFrom_sealed, length_spansFrom]

theorem stretch_sealed (words : List Word) : stretch (sealed words) = stretch words := by
  induction words with
  | nil => rfl
  | cons word rest ih =>
    cases rest with
    | nil => rfl
    | cons next rest =>
      have more : sealed (next :: rest) ≠ [] := by simp [← List.length_pos_iff, length_sealed]
      rw [sealed, stretch_cons word more, ih, stretch_cons word (List.cons_ne_nil next rest)]
      simp

/-- The words from one to another are all the words of the stretch between them. -/
theorem Words.ofList_stretch (text : List Char) {first last : Nat} (order : first ≤ last) :
    ofList (stretch (fromTo (ofList text).words first last)) =
      ⟨[], sealed (fromTo (ofList text).words first last)⟩ := by
  have whole : Proper ⟨(ofList text).lead, (ofList text).words.take first ++
      (fromTo (ofList text).words first last ++ (ofList text).words.drop (last + 1))⟩ := by
    rw [take_append_fromTo order]
    exact proper_ofList text
  rw [← toList_sealed]
  exact (whole.behind.sealed _).ofList_toList

/-- The runs of a stretch between words are those words. -/
theorem isRun_stretch_iff (text : List Char) {first last : Nat} (order : first ≤ last)
    (span : Span) : IsRun (stretch (fromTo (Words.ofList text).words first last)) span ↔
      span ∈ spansFrom (fun _ => 1) 0 (fromTo (Words.ofList text).words first last) := by
  have runs := (Words.proper_ofList
    (stretch (fromTo (Words.ofList text).words first last))).mem_spans_iff span
  rw [Words.toList_ofList, Words.ofList_stretch text order] at runs
  rw [← runs, Words.spans, spansFrom_sealed, width_nil]

end TreePattern.Text
