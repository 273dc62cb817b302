/-!
Dictionaries from texts to values: each key has one value, and the keys stand in ascending order
of their code points. Two dictionaries that answer alike are equal.
-/
namespace TreePattern

/-- The value under the first entry with the given key. -/
def Dict.find? {α : Type} (key : String) : List (String × α) → Option α
  | [] => none
  | (k, value) :: rest => if k = key then some value else find? key rest

/-- Puts an entry in its place among ascending ones, instead of any with the same key. -/
def Dict.place {α : Type} (key : String) (value : α) : List (String × α) → List (String × α)
  | [] => [(key, value)]
  | (k, v) :: rest =>
    if key < k then (key, value) :: (k, v) :: rest
    else if key = k then (key, value) :: rest
    else (k, v) :: place key value rest

def Dict.Ascending {α : Type} (entries : List (String × α)) : Prop :=
  entries.Pairwise fun a b => a.1 < b.1

theorem Dict.mem_place {α : Type} {key : String} {value : α} {e : String × α}
    {entries : List (String × α)} (h : e ∈ place key value entries) :
    e = (key, value) ∨ e ∈ entries := by
  induction entries with
  | nil => simpa [place] using h
  | cons head rest ih =>
    obtain ⟨k, v⟩ := head
    grind [place]

theorem Dict.Ascending.place {α : Type} {entries : List (String × α)} (h : Ascending entries)
    (key : String) (value : α) : Ascending (place key value entries) := by
  induction entries with
  | nil => simp [Dict.place, Ascending]
  | cons head rest ih =>
    obtain ⟨k, v⟩ := head
    have below := List.pairwise_cons.1 h
    simp only [Dict.place]
    split
    · next lt =>
      refine List.pairwise_cons.2 ⟨fun e he => ?_, h⟩
      rcases List.mem_cons.1 he with rfl | he
      · exact lt
      · exact String.lt_trans lt (below.1 e he)
    · next ge =>
      split
      · next eq =>
        subst eq
        exact List.pairwise_cons.2 ⟨below.1, below.2⟩
      · next ne =>
        refine List.pairwise_cons.2 ⟨fun e he => ?_, ih below.2⟩
        rcases mem_place he with rfl | he
        · exact Std.lt_of_le_of_ne (String.not_lt.1 ge) (Ne.symm ne)
        · exact below.1 e he

structure Dict (α : Type) where
  entries : List (String × α)
  ascending : Dict.Ascending entries
  deriving DecidableEq, Repr

namespace Dict

variable {α : Type}

def empty : Dict α := ⟨[], List.Pairwise.nil⟩

def get? (d : Dict α) (key : String) : Option α := find? key d.entries

def insert (d : Dict α) (key : String) (value : α) : Dict α :=
  ⟨place key value d.entries, d.ascending.place key value⟩

/-- Of several pairs with one key the last one counts. -/
def ofList (pairs : List (String × α)) : Dict α :=
  pairs.foldl (fun d pair => d.insert pair.1 pair.2) empty

def keys (d : Dict α) : List String := d.entries.map Prod.fst

def size (d : Dict α) : Nat := d.entries.length

@[simp] theorem get?_empty (key : String) : (empty : Dict α).get? key = none := rfl

theorem find?_place (key other : String) (value : α) (entries : List (String × α)) :
    find? other (place key value entries) =
      if key = other then some value else find? other entries := by
  induction entries with
  | nil => rfl
  | cons head rest ih =>
    obtain ⟨k, v⟩ := head
    grind [place, find?]

theorem get?_insert (d : Dict α) (key other : String) (value : α) :
    (d.insert key value).get? other = if key = other then some value else d.get? other :=
  find?_place key other value d.entries

/-- An entry whose key comes after all others is placed at the end. -/
theorem place_of_lt {key : String} {value : α} {entries : List (String × α)}
    (last : ∀ e ∈ entries, e.1 < key) : place key value entries = entries ++ [(key, value)] := by
  induction entries with
  | nil => rfl
  | cons head rest ih =>
    obtain ⟨k, v⟩ := head
    have before : k < key := last (k, v) List.mem_cons_self
    have apart : key ≠ k := fun same => String.lt_irrefl k (same ▸ before)
    rw [place, if_neg (String.lt_asymm before), if_neg apart,
      ih fun e he => last e (List.mem_cons_of_mem _ he), List.cons_append]

/-- Ascending pairs behind the entries of a dictionary become entries as they stand. -/
theorem entries_foldl_insert {d : Dict α} {pairs : List (String × α)}
    (h : Ascending (d.entries ++ pairs)) :
    (pairs.foldl (fun d pair => d.insert pair.1 pair.2) d).entries = d.entries ++ pairs := by
  induction pairs generalizing d with
  | nil => simp
  | cons pair pairs ih =>
    have last : ∀ e ∈ d.entries, e.1 < pair.1 := fun e he =>
      (List.pairwise_append.1 h).2.2 e he pair List.mem_cons_self
    have placed : (d.insert pair.1 pair.2).entries = d.entries ++ [pair] := place_of_lt last
    rw [List.foldl_cons, ih (by simpa [placed] using h), placed, List.append_assoc,
      List.singleton_append]

/-- A dictionary is filled anew from its own entries. -/
@[simp] theorem ofList_entries (d : Dict α) : ofList d.entries = d := by
  have filled : (ofList d.entries).entries = d.entries := entries_foldl_insert d.ascending
  obtain ⟨entries, ascending⟩ := d
  exact (Dict.mk.injEq ..).mpr filled

end Dict

end TreePattern
