import TreePattern.Text.Blank
import TreePattern.Text.Delimiter
import TreePattern.Text.Numeral
import Mathlib.Data.List.Basic
import Mathlib.Data.List.DropRight
/-!
What the texts of ranges are made of, said without the functions that read them. A text has one
core, which is left when the blanks around it are gone. A pair of marks counts only when both are
there, and a number is spelled with digits behind a sign or none.
-/
namespace TreePattern.Text

/-- A stretch of blanks alone. It may be empty. -/
def Blanks (cs : List Char) : Prop := ∀ c ∈ cs, isBlank c

theorem Blanks.append {cs ds : List Char} (blank : Blanks cs) (blank' : Blanks ds) :
    Blanks (cs ++ ds) :=
  List.forall_mem_append.2 ⟨blank, blank'⟩

/-- No blank stands at either end of a text. -/
structure Sharp (cs : List Char) : Prop where
  left : ∀ c, cs.head? = some c → isBlank c = false
  right : ∀ c, cs.getLast? = some c → isBlank c = false

theorem sharp_of_forall {cs : List Char} (h : ∀ c ∈ cs, isBlank c = false) : Sharp cs :=
  ⟨fun c head => h c (List.mem_of_head? head), fun c last => h c (List.mem_of_getLast? last)⟩

theorem sharp_singleton {c : Char} (sharp : isBlank c = false) : Sharp [c] :=
  sharp_of_forall (by simpa using sharp)

/-- No blank stands at either end of a text that starts and ends with such texts. -/
theorem Sharp.append {cs ds : List Char} (sharp : Sharp cs) (sharp' : Sharp ds) (ne : cs ≠ [])
    (ne' : ds ≠ []) (between : List Char) : Sharp (cs ++ between ++ ds) := by
  constructor
  · intro c head
    rw [List.append_assoc, List.head?_append_of_ne_nil _ ne] at head
    exact sharp.left c head
  · intro c last
    rw [List.getLast?_append_of_ne_nil _ ne'] at last
    exact sharp'.right c last

/-- The core of a text: no blank stands at its ends, and only blanks stand around it. -/
structure Core (cs core : List Char) : Prop where
  around : ∃ lead trail, Blanks lead ∧ Blanks trail ∧ cs = lead ++ core ++ trail
  sharp : Sharp core

theorem trimStart_append {lead rest : List Char} (blank : Blanks lead)
    (sharp : ∀ c, rest.head? = some c → isBlank c = false) : trimStart (lead ++ rest) = rest := by
  rw [trimStart, List.dropWhile_append_of_pos blank]
  cases rest with
  | nil => rfl
  | cons c rest => exact List.dropWhile_cons_of_neg (by simp [sharp c rfl])

theorem trimEnd_append {front trail : List Char} (blank : Blanks trail)
    (sharp : ∀ c, front.getLast? = some c → isBlank c = false) :
    trimEnd (front ++ trail) = front := by
  have mirrored : trimStart (trail.reverse ++ front.reverse) = front.reverse :=
    trimStart_append (fun c mem => blank c (List.mem_reverse.1 mem)) (by simpa using sharp)
  rw [trimEnd, List.reverse_append, ← trimStart, mirrored, List.reverse_reverse]

theorem Core.trim_eq {cs core : List Char} (h : Core cs core) : trim cs = core := by
  obtain ⟨⟨lead, trail, blank, blank', rfl⟩, sharp⟩ := h
  by_cases empty : core = []
  · -- The blanks on the two sides meet, and all of them are taken off from the left.
    have all : Blanks (lead ++ core ++ trail) := by
      rw [empty, List.append_nil]
      exact blank.append blank'
    have nothing : trimStart (lead ++ core ++ trail ++ []) = [] := trimStart_append all (by simp)
    rw [List.append_nil] at nothing
    rw [trim, nothing, empty]
    rfl
  · obtain ⟨c, rest, rfl⟩ := List.exists_cons_of_ne_nil empty
    rw [trim, List.append_assoc, trimStart_append blank (by simpa using sharp.left),
      trimEnd_append blank' sharp.right]

theorem exists_trimStart (cs : List Char) : ∃ lead, Blanks lead ∧ cs = lead ++ trimStart cs :=
  ⟨cs.takeWhile isBlank, fun _ mem => List.mem_takeWhile_imp mem,
    List.takeWhile_append_dropWhile.symm⟩

theorem exists_trimEnd (cs : List Char) : ∃ trail, Blanks trail ∧ cs = trimEnd cs ++ trail :=
  ⟨cs.rtakeWhile isBlank, fun _ mem => List.mem_rtakeWhile_imp mem,
    (List.rdropWhile_append_rtakeWhile ..).symm⟩

theorem isBlank_of_head?_trimStart {cs : List Char} {c : Char}
    (head : (trimStart cs).head? = some c) : isBlank c = false := by
  have stopped := List.head?_dropWhile_not isBlank cs
  rw [← trimStart, head] at stopped
  exact stopped

theorem core_trim (cs : List Char) : Core cs (trim cs) := by
  obtain ⟨lead, blank, front⟩ := exists_trimStart cs
  obtain ⟨trail, blank', back⟩ := exists_trimEnd (trimStart cs)
  refine ⟨⟨lead, trail, blank, blank', ?_⟩, fun c head => ?_, fun c last => ?_⟩
  · rw [List.append_assoc, trim, ← back, ← front]
  · have first : (trimStart cs).head? = some c := by
      rw [back, List.head?_append, ← trim, head, Option.some_or]
    exact isBlank_of_head?_trimStart first
  · rw [trim, trimEnd, List.getLast?_reverse] at last
    exact isBlank_of_head?_trimStart last

/-- A text has exactly one core. -/
theorem core_iff {cs core : List Char} : Core cs core ↔ trim cs = core := by
  constructor
  · exact Core.trim_eq
  · rintro rfl
    exact core_trim cs

section Gaps

variable {cs cs' gap gap' : List Char}

theorem Sharp.trim_eq (sharp : Sharp cs) : trim cs = cs :=
  Core.trim_eq ⟨⟨[], [], by simp [Blanks], by simp [Blanks], by simp⟩, sharp⟩

theorem Sharp.trim_append (sharp : Sharp cs) (blank : Blanks gap) : trim (cs ++ gap) = cs :=
  Core.trim_eq ⟨⟨[], gap, by simp [Blanks], blank, by simp⟩, sharp⟩

theorem Sharp.trim_gap_append (sharp : Sharp cs) (blank : Blanks gap) : trim (gap ++ cs) = cs :=
  Core.trim_eq ⟨⟨gap, [], blank, by simp [Blanks], by simp⟩, sharp⟩

/-- A text and the blanks behind it are told apart. -/
theorem Sharp.append_inj (sharp : Sharp cs) (sharp' : Sharp cs') (blank : Blanks gap)
    (blank' : Blanks gap') (same : cs ++ gap = cs' ++ gap') : cs = cs' ∧ gap = gap' := by
  obtain rfl : cs = cs' := by
    rw [← sharp.trim_append blank, same, sharp'.trim_append blank']
  exact ⟨rfl, List.append_cancel_left same⟩

theorem Sharp.gap_append_inj (sharp : Sharp cs) (sharp' : Sharp cs') (blank : Blanks gap)
    (blank' : Blanks gap') (same : gap ++ cs = gap' ++ cs') : gap = gap' ∧ cs = cs' := by
  obtain rfl : cs = cs' := by
    rw [← sharp.trim_gap_append blank, same, sharp'.trim_gap_append blank']
  exact ⟨List.append_cancel_right same, rfl⟩

/-- A text with no blank in front is its core with blanks behind. -/
theorem exists_trim_append (sharp : ∀ c, cs.head? = some c → isBlank c = false) :
    ∃ gap, Blanks gap ∧ cs = trim cs ++ gap := by
  obtain ⟨lead, trail, blank, blank', around⟩ := (core_trim cs).around
  obtain rfl : lead = [] := by
    cases lead with
    | nil => rfl
    | cons c lead =>
      have inside := sharp c (by rw [around]; rfl)
      simp [blank c List.mem_cons_self] at inside
  exact ⟨trail, blank', around⟩

theorem exists_append_trim (sharp : ∀ c, cs.getLast? = some c → isBlank c = false) :
    ∃ gap, Blanks gap ∧ cs = gap ++ trim cs := by
  obtain ⟨lead, trail, blank, blank', around⟩ := (core_trim cs).around
  obtain rfl : trail = [] := by
    cases trail using List.reverseRecOn with
    | nil => rfl
    | append_singleton trail c =>
      have inside := sharp c (by rw [around, ← List.append_assoc, List.getLast?_concat])
      simp [blank' c (by simp)] at inside
  exact ⟨lead, blank, by simpa using around⟩

/-- Around a mark inside a text stand two cores, with blanks between them and the mark alone. -/
theorem Sharp.exists_gaps {before after : List Char} {mark : Char}
    (sharp : Sharp (before ++ mark :: after)) :
    (∃ gap, Blanks gap ∧ before = trim before ++ gap) ∧
      ∃ gap, Blanks gap ∧ after = gap ++ trim after := by
  constructor
  · refine exists_trim_append fun c head => sharp.left c ?_
    rw [List.head?_append, head, Option.some_or]
  · refine exists_append_trim fun c last => sharp.right c ?_
    simp [List.getLast?_append, List.getLast?_cons, last]

end Gaps

/-- What a text says inside its marks, if one stands at either end of its core, and otherwise what
its core says. -/
inductive Inside (opening closing : Char) (cs : List Char) : List Char → Prop where
  | marked {inner core : List Char} : Core cs (opening :: (inner ++ [closing])) → Core inner core →
      Inside opening closing cs core
  | bare {outer core : List Char} : Core cs outer →
      (∀ inner, outer ≠ opening :: (inner ++ [closing])) → Core outer core →
      Inside opening closing cs core

theorem stripPair_eq_self {opening closing : Char} {cs : List Char}
    (bare : ∀ inner, cs ≠ opening :: (inner ++ [closing])) : stripPair opening closing cs = cs := by
  apply if_neg
  rintro ⟨head, last⟩
  obtain ⟨rest, rfl⟩ := List.head?_eq_some_iff.1 head
  obtain ⟨inner, same⟩ := List.getLast?_eq_some_iff.1 last
  exact bare inner (congrArg (opening :: ·) same)

theorem inside_iff {opening closing : Char} {cs core : List Char} :
    Inside opening closing cs core ↔ core = trim (stripPair opening closing (trim cs)) := by
  constructor
  · rintro (⟨outer, inner⟩ | ⟨outer, bare, inner⟩)
    · rw [outer.trim_eq, stripPair_append, inner.trim_eq]
    · rw [outer.trim_eq, stripPair_eq_self bare, inner.trim_eq]
  · rintro rfl
    by_cases marked : ∃ inner, trim cs = opening :: (inner ++ [closing])
    · obtain ⟨inner, same⟩ := marked
      rw [same, stripPair_append]
      exact .marked (core_iff.2 same) (core_trim inner)
    · have bare : ∀ inner, trim cs ≠ opening :: (inner ++ [closing]) := not_exists.1 marked
      rw [stripPair_eq_self bare]
      exact .bare (core_trim cs) bare (core_trim (trim cs))

/-- What is written between marks is what the text says. -/
theorem inside_marked {opening closing : Char} {inner : List Char}
    (left : isBlank opening = false) (right : isBlank closing = false) (sharp : Sharp inner) :
    Inside opening closing (opening :: (inner ++ [closing])) inner := by
  have marked : Sharp ([opening] ++ inner ++ [closing]) :=
    (sharp_singleton left).append (sharp_singleton right) (by simp) (by simp) inner
  exact .marked (core_iff.2 marked.trim_eq) (core_iff.2 sharp.trim_eq)

/-- One or more ASCII digits. -/
def Digits (ds : List Char) : Prop := ds ≠ [] ∧ ∀ d ∈ ds, d.isDigit

/-- A number is spelled with the digits of its absolute value, behind a sign or none. -/
inductive Spells : List Char → Int → Prop where
  | plain {ds : List Char} : Digits ds → Spells ds (Nat.ofDigitChars 10 ds 0)
  | plus {ds : List Char} : Digits ds → Spells ('+' :: ds) (Nat.ofDigitChars 10 ds 0)
  | minus {ds : List Char} : Digits ds → Spells ('-' :: ds) (-Nat.ofDigitChars 10 ds 0)

theorem digits?_eq_some_iff {ds : List Char} {n : Nat} :
    digits? ds = some n ↔ Digits ds ∧ Nat.ofDigitChars 10 ds 0 = n := by
  rw [digits?, Option.ite_none_right_eq_some, List.all_eq_true, Option.some.injEq, Digits]

theorem Digits.digits?_eq {ds : List Char} (digits : Digits ds) :
    digits? ds = some (Nat.ofDigitChars 10 ds 0) :=
  digits?_eq_some_iff.2 ⟨digits, rfl⟩

theorem spells_iff {cs : List Char} {n : Int} : Spells cs n ↔ integer? cs = some n := by
  constructor
  · rintro (digits | digits | digits)
    · unfold integer?
      split
      · exact absurd (digits.2 _ List.mem_cons_self) (by decide)
      · exact absurd (digits.2 _ List.mem_cons_self) (by decide)
      · rw [digits.digits?_eq]
        rfl
    · rw [integer?, digits.digits?_eq]
      rfl
    · rw [integer?, digits.digits?_eq]
      rfl
  · intro read
    unfold integer? at read
    split at read
    · next ds =>
      cases found : digits? ds with
      | none => simp [found] at read
      | some m =>
        obtain ⟨digits, rfl⟩ := digits?_eq_some_iff.1 found
        obtain rfl : -(Nat.ofDigitChars 10 ds 0 : Int) = n := by simpa [found] using read
        exact .minus digits
    · obtain ⟨m, found, rfl⟩ := Option.map_eq_some_iff.1 read
      obtain ⟨digits, rfl⟩ := digits?_eq_some_iff.1 found
      exact .plus digits
    · obtain ⟨m, found, rfl⟩ := Option.map_eq_some_iff.1 read
      obtain ⟨digits, rfl⟩ := digits?_eq_some_iff.1 found
      exact .plain digits

theorem spells_decimal (n : Nat) : Spells (decimal n) n :=
  spells_iff.2 (integer?_signedDecimal n)

theorem head?_decimal_ne_dash (n : Nat) : (decimal n).head? ≠ some '-' := fun dash =>
  absurd (isDigit_of_mem_decimal (List.mem_of_head? dash)) (by decide)

/-- A number without a dash in front is read alike with and without regard to signs. -/
theorem integer?_of_unsigned {cs : List Char} (unsigned : cs.head? ≠ some '-') :
    integer? cs = (natural? cs).map Int.ofNat := by
  unfold integer? natural?
  split
  · exact absurd rfl unsigned
  · rfl
  · next unplus =>
    split
    · exact absurd rfl (unplus _)
    · rfl

theorem natural?_eq_some_iff {cs : List Char} {n : Nat} :
    natural? cs = some n ↔ Spells cs n ∧ cs.head? ≠ some '-' := by
  by_cases unsigned : cs.head? = some '-'
  · obtain ⟨ds, rfl⟩ := List.head?_eq_some_iff.1 unsigned
    simp [natural?, digits?, show '-'.isDigit = false by decide]
  · rw [spells_iff, integer?_of_unsigned unsigned, Option.map_eq_some_iff]
    constructor
    · intro read
      exact ⟨⟨n, read, rfl⟩, unsigned⟩
    · rintro ⟨⟨m, read, same⟩, -⟩
      rwa [Int.ofNat.inj same] at read

theorem uint64OfNat?_eq_some_iff {n : Nat} {w : UInt64} :
    uint64OfNat? n = some w ↔ w.toNat = n := by
  constructor
  · intro found
    obtain ⟨fits, same⟩ := Option.dite_none_right_eq_some.1 found
    rw [← Option.some.inj same, UInt64.toNat_ofNatLT]
  · rintro rfl
    exact uint64OfNat?_toNat w

theorem uint64?_eq_some_iff {cs : List Char} {w : UInt64} :
    uint64? cs = some w ↔ Spells cs w.toNat ∧ cs.head? ≠ some '-' := by
  rw [uint64?, Option.bind_eq_some_iff, ← natural?_eq_some_iff]
  constructor
  · rintro ⟨n, read, fits⟩
    rw [uint64OfNat?_eq_some_iff.1 fits, read]
  · intro read
    exact ⟨w.toNat, read, uint64OfNat?_toNat w⟩

theorem int32OfInt?_eq_some_iff {n : Int} {w : Int32} : int32OfInt? n = some w ↔ w.toInt = n := by
  constructor
  · intro found
    obtain ⟨fits, same⟩ := Option.dite_none_right_eq_some.1 found
    rw [← Option.some.inj same, Int32.toInt_ofIntLE]
  · rintro rfl
    exact int32OfInt?_toInt w

theorem int32?_eq_some_iff {cs : List Char} {w : Int32} :
    int32? cs = some w ↔ Spells cs w.toInt := by
  rw [int32?, Option.bind_eq_some_iff]
  constructor
  · rintro ⟨n, read, fits⟩
    rw [int32OfInt?_eq_some_iff.1 fits]
    exact spells_iff.2 read
  · intro spelled
    exact ⟨w.toInt, spells_iff.1 spelled, int32OfInt?_toInt w⟩

/-- Behind the first character of a number only digits stand. -/
theorem Spells.exists_cons {cs : List Char} {n : Int} (spelled : Spells cs n) :
    ∃ c ds, cs = c :: ds ∧ isBlank c = false ∧ ∀ d ∈ ds, d.isDigit := by
  cases spelled with
  | plain digits =>
    obtain ⟨c, ds, rfl⟩ := List.exists_cons_of_ne_nil digits.1
    obtain ⟨head, tail⟩ := List.forall_mem_cons.1 digits.2
    exact ⟨c, ds, rfl, isBlank_of_isDigit head, tail⟩
  | plus digits => exact ⟨'+', _, rfl, by decide, digits.2⟩
  | minus digits => exact ⟨'-', _, rfl, by decide, digits.2⟩

theorem Spells.digits_of_dash {ds : List Char} {n : Int} (spelled : Spells ('-' :: ds) n) :
    Digits ds := by
  cases spelled with
  | plain digits => exact absurd (digits.2 '-' List.mem_cons_self) (by decide)
  | minus digits => exact digits

theorem Spells.ne_nil {cs : List Char} {n : Int} (spelled : Spells cs n) : cs ≠ [] := by
  obtain ⟨c, ds, rfl, -⟩ := spelled.exists_cons
  exact List.cons_ne_nil c ds

theorem Spells.sharp {cs : List Char} {n : Int} (spelled : Spells cs n) : Sharp cs := by
  obtain ⟨c, ds, rfl, head, tail⟩ := spelled.exists_cons
  apply sharp_of_forall
  exact List.forall_mem_cons.2 ⟨head, fun d mem => isBlank_of_isDigit (tail d mem)⟩

end TreePattern.Text
