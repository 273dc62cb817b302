import Mathlib.Algebra.Group.Int.Defs
import Mathlib.Algebra.Group.Nat.Defs
import TreePattern.Proofs.Words
import TreePattern.Range.Bytes
/-!
The words that the pass over a text finds stand where its words begin and end in bytes, and there
the text can be cut. Sums of machine words are exact while they stay in bounds.
-/
namespace TreePattern

open Text

namespace Text

namespace Scan

theorem foldl_step_separators {separators : List Char} (separate : ∀ c ∈ separators, isSeparator c)
    (here : Nat) (closed : List Span) : separators.foldl step ⟨here, none, closed⟩ =
      ⟨here + width Char.utf8Size separators, none, closed⟩ := by
  induction separators generalizing here with
  | nil => rfl
  | cons c separators ih =>
    obtain ⟨head, tail⟩ := List.forall_mem_cons.1 separate
    rw [List.foldl_cons, width_cons, ← Nat.add_assoc, ← ih tail]
    simp [step, head]

theorem foldl_step_letters {letters : List Char} (sharp : ∀ c ∈ letters, isSeparator c = false)
    (here start : Nat) (closed : List Span) : letters.foldl step ⟨here, some start, closed⟩ =
      ⟨here + width Char.utf8Size letters, some start, closed⟩ := by
  induction letters generalizing here with
  | nil => rfl
  | cons c letters ih =>
    obtain ⟨head, tail⟩ := List.forall_mem_cons.1 sharp
    rw [List.foldl_cons, width_cons, ← Nat.add_assoc, ← ih tail]
    simp [step, head]

theorem foldl_step_word {letters : List Char} (nonempty : letters ≠ [])
    (sharp : ∀ c ∈ letters, isSeparator c = false) (here : Nat) (closed : List Span) :
    letters.foldl step ⟨here, none, closed⟩ =
      ⟨here + width Char.utf8Size letters, some here, closed⟩ := by
  obtain ⟨c, letters, rfl⟩ := List.exists_cons_of_ne_nil nonempty
  obtain ⟨head, tail⟩ := List.forall_mem_cons.1 sharp
  rw [List.foldl_cons, width_cons, ← Nat.add_assoc, ← foldl_step_letters tail]
  simp [step, head]

/-- The end of a text closes the word that is open, and so does a separator. -/
theorem finish_opened {rest : List Char} (behind : ∀ c, rest.head? = some c → isSeparator c)
    (here start : Nat) (closed : List Span) :
    (rest.foldl step ⟨here, some start, closed⟩).finish (here + width Char.utf8Size rest) =
      (rest.foldl step ⟨here, none, closed ++ [⟨start, here⟩]⟩).finish
        (here + width Char.utf8Size rest) := by
  cases rest with
  | nil => rfl
  | cons c rest =>
    have separates := behind c rfl
    simp [step, separates]

theorem finish_foldl_step {text : Words} (proper : text.Proper) (here : Nat) (closed : List Span) :
    (text.toList.foldl step ⟨here, none, closed⟩).finish
      (here + width Char.utf8Size text.toList) =
        closed ++ spansFrom Char.utf8Size (here + width Char.utf8Size text.lead) text.words := by
  induction proper generalizing here closed with
  | last separate => simp [Words.toList, foldl_step_separators separate, finish, spansFrom]
  | @word lead letters gap rest separate nonempty sharp apart behind ih =>
    rw [Words.toList_cons_word, List.foldl_append, List.foldl_append,
      foldl_step_separators separate, foldl_step_word nonempty sharp, width_append, width_append,
      ← Nat.add_assoc, ← Nat.add_assoc, finish_opened fun _ => behind.separator_of_head? apart, ih]
    simp [spansFrom, Nat.add_assoc]

end Scan

/-- The pass over a text finds its words. -/
theorem byteSpans_eq (text : String) :
    byteSpans text = (Words.ofList text.toList).spans Char.utf8Size := by
  have found := Scan.finish_foldl_step (Words.proper_ofList text.toList) 0 []
  rw [Words.toList_ofList, width_utf8Size, String.ofList_toList] at found
  simpa [byteSpans, Words.spans] using found

/-- A stretch of text is cut out by the bytes before it and its own. -/
theorem slice_width {text : String} {before word after : List Char}
    (cut : text.toList = before ++ word ++ after) :
    slice text ⟨width Char.utf8Size before,
      width Char.utf8Size before + width Char.utf8Size word⟩ = .ok (String.ofList word) := by
  have whole : text = String.ofList before ++ String.ofList word ++ String.ofList after := by
    rw [← String.ofList_append, ← String.ofList_append, ← cut, String.ofList_toList]
  have startValid : String.Pos.Raw.IsValid text ⟨width Char.utf8Size before⟩ :=
    String.Pos.Raw.isValid_iff_exists_append.2
      ⟨String.ofList before, String.ofList word ++ String.ofList after, by
        rw [whole, String.append_assoc], by rw [width_utf8Size]; rfl⟩
  have stopValid : String.Pos.Raw.IsValid text
      ⟨width Char.utf8Size before + width Char.utf8Size word⟩ :=
    String.Pos.Raw.isValid_iff_exists_append.2
      ⟨String.ofList before ++ String.ofList word, String.ofList after, whole, by
        rw [← width_append, width_utf8Size, String.ofList_append]; rfl⟩
  rw [slice, dif_pos ⟨startValid, stopValid, Nat.le_add_right _ _⟩]
  apply congrArg
  rw [← String.toByteArray_inj, String.toByteArray_extract]
  simp only [String.offset_pos, whole, String.toByteArray_append, ByteArray.append_assoc]
  have start : width Char.utf8Size before = (String.ofList before).toByteArray.size := by
    rw [String.size_toByteArray, width_utf8Size]
  rw [← Nat.add_zero (width Char.utf8Size before), Nat.add_assoc, Nat.zero_add,
    ByteArray.extract_append_size_add' start]
  apply ByteArray.extract_append_eq_left
  rw [String.size_toByteArray, width_utf8Size]

end Text

theorem add64_of_bounds {a b : Int64} (low : -2 ^ 63 ≤ a.toInt + b.toInt)
    (high : a.toInt + b.toInt < 2 ^ 63) :
    add64 a b = .ok (a + b) ∧ (a + b).toInt = a.toInt + b.toInt := by
  have sum : (a + b).toInt = a.toInt + b.toInt := by
    rw [Int64.toInt_add]
    exact Int.bmod_eq_of_le (by omega) (by omega)
  exact ⟨if_pos sum, sum⟩

end TreePattern
