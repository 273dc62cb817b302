import TreePattern.Text.Blank
/-!
Words of a text. A word is a longest run of characters none of which separates words. A text is
cut into the separators before its first word and its words, each with the separators after it,
so that nothing is lost and every stretch from one word to another can be put together again.
-/
namespace TreePattern.Text

/-- Blanks separate words, and so do these marks. A dot does not, so that a dotted version
number is one word. -/
def isSeparator (c : Char) : Bool :=
  isBlank c || c ∈ ['/', ';', ':', ',', '_', '-', '=', '+', '(', ')', '[', ']', '\x7b', '\x7d',
    '<', '>', '|', '&', '\x22', '\x27']

/-- A word and the separators between it and the next word or the end of the text. -/
structure Word where
  letters : List Char
  gap : List Char
  deriving DecidableEq, Repr

structure Words where
  lead : List Char
  words : List Word
  deriving DecidableEq, Repr

/-- Puts one more character in front of a text that is cut already. -/
def Words.cons (c : Char) : Words → Words
  | ⟨lead, words⟩ =>
    if isSeparator c then ⟨c :: lead, words⟩
    else match lead, words with
      | [], word :: rest => ⟨[], ⟨c :: word.letters, word.gap⟩ :: rest⟩
      | lead, words => ⟨[], ⟨[c], lead⟩ :: words⟩

section Cons

variable {c : Char}

theorem Words.cons_separator (h : isSeparator c) (lead : List Char) (words : List Word) :
    cons c ⟨lead, words⟩ = ⟨c :: lead, words⟩ := by
  simp [cons, h]

/-- A letter right before a word belongs to it. -/
theorem Words.cons_letter (h : isSeparator c = false) (letters gap : List Char)
    (rest : List Word) : cons c ⟨[], ⟨letters, gap⟩ :: rest⟩ = ⟨[], ⟨c :: letters, gap⟩ :: rest⟩ := by
  simp [cons, h]

/-- A letter before separators or at the end of the text is a word by itself. -/
theorem Words.cons_word (h : isSeparator c = false) {lead : List Char} {words : List Word}
    (apart : lead = [] → words = []) : cons c ⟨lead, words⟩ = ⟨[], ⟨[c], lead⟩ :: words⟩ := by
  cases lead with
  | nil => simp [cons, h, apart rfl]
  | cons d lead => simp [cons, h]

end Cons

def Words.ofList (cs : List Char) : Words := cs.foldr .cons ⟨[], []⟩

def Words.toList (text : Words) : List Char :=
  text.lead ++ text.words.flatMap fun word => word.letters ++ word.gap

theorem Words.toList_cons (c : Char) (text : Words) :
    (text.cons c).toList = c :: text.toList := by
  obtain ⟨lead, words⟩ := text
  simp only [cons]
  split
  · simp [toList]
  · split <;> simp [toList]

/-- Nothing is lost when a text is cut into words. -/
@[simp] theorem Words.toList_ofList (cs : List Char) : (ofList cs).toList = cs := by
  induction cs with
  | nil => rfl
  | cons c cs ih => rw [ofList, List.foldr_cons, toList_cons, ← ofList, ih]

/-- The stretch of text from the first word listed to the end of the last one. -/
def stretch : List Word → List Char
  | [] => []
  | [word] => word.letters
  | word :: rest => word.letters ++ word.gap ++ stretch rest

end TreePattern.Text
