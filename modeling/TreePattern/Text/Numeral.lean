/-!
Decimal numerals: how numbers are written, and which texts read as a number of a fixed width.
A numeral is one or more ASCII digits after an optional sign; a text that overflows the width is
no numeral of it.
-/
namespace TreePattern.Text

def decimal (n : Nat) : List Char := Nat.toDigits 10 n

def signedDecimal : Int → List Char
  | .ofNat n => decimal n
  | .negSucc n => '-' :: decimal (n + 1)

theorem isDigit_of_mem_decimal {n : Nat} {c : Char} (h : c ∈ decimal n) : c.isDigit :=
  Nat.isDigit_of_mem_toDigits (by decide) (by decide) h

theorem decimal_ne_nil (n : Nat) : decimal n ≠ [] := Nat.toDigits_ne_nil

/-- Behind the first character of a number only digits stand. -/
theorem exists_signedDecimal_eq_cons (n : Int) :
    ∃ c ds, signedDecimal n = c :: ds ∧ (c = '-' ∨ c.isDigit) ∧ ∀ d ∈ ds, d.isDigit := by
  cases n with
  | ofNat n =>
    obtain ⟨c, ds, split⟩ := List.exists_cons_of_ne_nil (decimal_ne_nil n)
    have digits : ∀ d ∈ c :: ds, d.isDigit := fun d hd => isDigit_of_mem_decimal (split ▸ hd)
    rw [List.forall_mem_cons] at digits
    exact ⟨c, ds, split, .inr digits.1, digits.2⟩
  | negSucc n => exact ⟨'-', decimal (n + 1), rfl, .inl rfl, fun _ => isDigit_of_mem_decimal⟩

/-- Every character of a number is a digit or the dash of its sign. -/
theorem dash_or_isDigit_of_mem_signedDecimal {n : Int} {c : Char} (h : c ∈ signedDecimal n) :
    c = '-' ∨ c.isDigit := by
  obtain ⟨d, ds, split, head, digits⟩ := exists_signedDecimal_eq_cons n
  rw [split] at h
  rcases List.mem_cons.1 h with rfl | behind
  · exact head
  · exact .inr (digits c behind)

theorem signedDecimal_of_nonneg {n : Int} (h : 0 ≤ n) : signedDecimal n = decimal n.toNat := by
  cases n with
  | ofNat n => rfl
  | negSucc n => omega

theorem signedDecimal_of_neg {n : Int} (h : n < 0) : signedDecimal n = '-' :: signedDecimal (-n) := by
  cases n with
  | ofNat n => simp at h; omega
  | negSucc n => rfl

def ofNat (n : Nat) : String := String.ofList (decimal n)

def ofInt (n : Int) : String := String.ofList (signedDecimal n)

@[simp] theorem toList_ofNat (n : Nat) : (ofNat n).toList = decimal n := by simp [ofNat]

@[simp] theorem toList_ofInt (n : Int) : (ofInt n).toList = signedDecimal n := by simp [ofInt]

/-- One or more ASCII digits, and nothing else. -/
def digits? (cs : List Char) : Option Nat :=
  if cs ≠ [] ∧ cs.all Char.isDigit then some (Nat.ofDigitChars 10 cs 0) else none

@[simp] theorem digits?_nil : digits? [] = none := rfl

@[simp] theorem digits?_decimal (n : Nat) : digits? (decimal n) = some n := by
  have h : ∀ c ∈ Nat.toDigits 10 n, c.isDigit = true := fun _ => isDigit_of_mem_decimal
  simpa [digits?, decimal, Nat.toDigits_ne_nil, Nat.ofDigitChars_toDigits] using h

/-- Digits after an optional plus sign. -/
def natural? : List Char → Option Nat
  | '+' :: ds => digits? ds
  | ds => digits? ds

/-- Digits after an optional sign. -/
def integer? : List Char → Option Int
  | '-' :: ds => (digits? ds).map fun n => -(n : Int)
  | '+' :: ds => (digits? ds).map Int.ofNat
  | ds => (digits? ds).map Int.ofNat

@[simp] theorem integer?_signedDecimal (n : Int) : integer? (signedDecimal n) = some n := by
  cases n with
  | ofNat n =>
    rw [signedDecimal]
    unfold integer?
    split
    · next ds minus => exact absurd (isDigit_of_mem_decimal (minus ▸ List.mem_cons_self)) (by decide)
    · next ds plus => exact absurd (isDigit_of_mem_decimal (plus ▸ List.mem_cons_self)) (by decide)
    · simp
  | negSucc n => simp [signedDecimal, integer?, Int.negSucc_eq]

/-- A number as an unsigned word of 64 bits, if it is one. -/
def uint64OfNat? (n : Nat) : Option UInt64 :=
  if h : n < UInt64.size then some (.ofNatLT n h) else none

/-- A number as a signed word of 32 bits, if it is one. -/
def int32OfInt? (n : Int) : Option Int32 :=
  if h : Int32.minValue.toInt ≤ n ∧ n ≤ Int32.maxValue.toInt then some (.ofIntLE n h.1 h.2)
  else none

@[simp] theorem uint64OfNat?_toNat (w : UInt64) : uint64OfNat? w.toNat = some w := by
  simp [uint64OfNat?, w.toNat_lt]

@[simp] theorem int32OfInt?_toInt (w : Int32) : int32OfInt? w.toInt = some w := by
  rw [int32OfInt?, dif_pos ⟨w.minValue_le_toInt, w.toInt_le⟩]
  simp

def uint64? (cs : List Char) : Option UInt64 := (natural? cs).bind uint64OfNat?

def int32? (cs : List Char) : Option Int32 := (integer? cs).bind int32OfInt?

@[simp] theorem int32?_signedDecimal (n : Int) : int32? (signedDecimal n) = int32OfInt? n := by
  simp [int32?]

end TreePattern.Text
