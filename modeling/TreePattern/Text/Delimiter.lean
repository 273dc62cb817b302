/-!
Marks around and inside a text: one pair of marks taken off its ends, and the cut at the first
occurrence of a mark.
-/
namespace TreePattern.Text

/-- The text between `opening` at its start and `closing` at its end. A text that lacks either
mark is left alone. -/
def stripPair (opening closing : Char) (cs : List Char) : List Char :=
  if cs.head? = some opening ∧ cs.tail.getLast? = some closing then cs.tail.dropLast else cs

@[simp] theorem stripPair_append (opening closing : Char) (cs : List Char) :
    stripPair opening closing (opening :: (cs ++ [closing])) = cs := by
  simp [stripPair]

/-- What stands before and after the first `mark`; nothing when there is none. -/
def cut (mark : Char) : List Char → Option (List Char × List Char)
  | [] => none
  | c :: cs => if c = mark then some ([], cs) else (cut mark cs).map fun p => (c :: p.1, p.2)

theorem cut_eq_some_iff {mark : Char} {cs before after : List Char} :
    cut mark cs = some (before, after) ↔ cs = before ++ mark :: after ∧ mark ∉ before := by
  induction cs generalizing before with
  | nil => simp [cut]
  | cons c cs ih =>
    by_cases hc : c = mark
    · cases before with
      | nil => simp [cut, hc]
      | cons b bs => simp only [cut, hc, if_true]; grind
    · cases before with
      | nil => simp [cut, hc]
      | cons b bs => simp only [cut, hc, if_false, Option.map_eq_some_iff, Prod.exists]; grind

theorem cut_eq_none_iff {mark : Char} {cs : List Char} : cut mark cs = none ↔ mark ∉ cs := by
  induction cs with
  | nil => simp [cut]
  | cons c cs ih =>
    by_cases hc : c = mark
    · simp [cut, hc]
    · simp [cut, hc, ih, Ne.symm hc]

end TreePattern.Text
