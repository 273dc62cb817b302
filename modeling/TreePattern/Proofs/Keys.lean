import Mathlib.Data.List.Forall2
import Mathlib.Data.List.Induction
import TreePattern.Proofs.Emission
import TreePattern.Proofs.Reach
/-!
The keys of look-up tables. Of several tables of one name the last one counts, and of several entries
with one key the last one. A value is looked up under itself, and otherwise under its form in lower
case, so a table that knows no upper case does not tell values apart by their case.
-/
namespace TreePattern

/-- The value of the last pair with the given key. -/
def lastUnder? {α : Type} (key : String) (pairs : List (String × α)) : Option α :=
  (pairs.reverse.find? fun pair => pair.1 = key).map Prod.snd

theorem lastUnder?_concat {α : Type} (key : String) (pairs : List (String × α))
    (pair : String × α) : lastUnder? key (pairs ++ [pair]) =
      if pair.1 = key then some pair.2 else lastUnder? key pairs := by
  rw [lastUnder?, lastUnder?, List.reverse_concat]
  by_cases same : pair.1 = key <;> simp [same]

/-- Texts that differ at most in the case of letters. Only the letters of ASCII have a case. -/
def SameButCase (u v : String) : Prop :=
  List.Forall₂ (fun c d => c = d ∨ c.toLower = d ∨ c = d.toLower) u.toList v.toList

namespace Dict

variable {α : Type}

theorem ofList_concat (pairs : List (String × α)) (pair : String × α) :
    ofList (pairs ++ [pair]) = (ofList pairs).insert pair.1 pair.2 := by
  rw [ofList, List.foldl_append]
  rfl

/-- A dictionary that is filled with pairs answers with the last one that has the key. -/
theorem get?_ofList (pairs : List (String × α)) (key : String) :
    (ofList pairs).get? key = lastUnder? key pairs := by
  induction pairs using List.reverseRecOn with
  | nil => rfl
  | append_singleton pairs pair ih =>
    rw [ofList_concat, get?_insert, ih, lastUnder?_concat]

theorem mem_of_find? {key : String} {value : α} {entries : List (String × α)}
    (h : find? key entries = some value) : (key, value) ∈ entries := by
  induction entries with
  | nil => cases h
  | cons entry rest ih =>
    rw [find?] at h
    split at h
    · next same =>
      rw [← same, ← Option.some.inj h]
      exact List.mem_cons_self
    · exact List.mem_cons_of_mem _ (ih h)

theorem mem_keys_of_get? {d : Dict α} {key : String} {value : α} (h : d.get? key = some value) :
    key ∈ d.keys :=
  List.mem_map_of_mem (mem_of_find? h)

end Dict

/-- What is registered under a name is the last table of that name. -/
theorem Registry.get?_ofTables (tables : List (String × List (String × String))) (name : String) :
    (ofTables tables).get? name = (lastUnder? name tables).map Dict.ofList := by
  induction tables using List.reverseRecOn with
  | nil => rfl
  | append_singleton tables table ih =>
    rw [ofTables, List.foldl_append, ← ofTables, List.foldl_cons, List.foldl_nil, addTable,
      Dict.get?_insert, ih, lastUnder?_concat]
    split <;> rfl

section Case

variable {u v : String}

theorem isUpper_iff {c : Char} : c.isUpper ↔ 65 ≤ c.toNat ∧ c.toNat ≤ 90 :=
  decide_eq_true_iff.trans (and_congr UInt32.le_iff_toNat_le UInt32.le_iff_toNat_le)

/-- Lower case lies 32 places behind upper case, and only letters of ASCII are lowered. -/
theorem toNat_toLower (c : Char) :
    c.toLower.toNat = if c.isUpper then c.toNat + 32 else c.toNat := by
  by_cases upper : c.isUpper
  · have lowered : c.toLower.val = c.val + 32 :=
      congrArg Char.val (dif_pos (decide_eq_true_iff.1 upper))
    have letter := isUpper_iff.1 upper
    rw [if_pos upper, ← Char.toNat_val, lowered, UInt32.toNat_add]
    exact Nat.mod_eq_of_lt (Nat.lt_of_le_of_lt (Nat.add_le_add_right letter.2 32) (by decide))
  · have kept : c.toLower = c := dif_neg (mt decide_eq_true_iff.2 upper)
    rw [if_neg upper, kept]

theorem lowerCase_eq_self (h : hasUpperCase u = false) : lowerCase u = u := by
  have lower : ∀ c ∈ u.toList, c.toLower = c := by
    intro c mem
    have other : ¬ c.isUpper := by simpa using List.any_eq_false.1 h c mem
    rw [← Char.toNat_inj, toNat_toLower, if_neg other]
  rw [lowerCase, List.map_congr_left lower, List.map_id', String.ofList_toList]

theorem toLower_eq_toLower_iff {c d : Char} :
    c.toLower = d.toLower ↔ c = d ∨ c.toLower = d ∨ c = d.toLower := by
  simp only [← Char.toNat_inj, toNat_toLower, isUpper_iff]
  -- Of codes this is arithmetic, since a lowered letter lies outside the upper case.
  grind

theorem sameButCase_iff : SameButCase u v ↔ lowerCase u = lowerCase v := by
  rw [lowerCase, lowerCase, String.ofList_inj, ← List.forall₂_eq_eq_eq, List.forall₂_map_left_iff,
    List.forall₂_map_right_iff]
  simp only [toLower_eq_toLower_iff, SameButCase]

end Case

namespace Table

variable {table : Table}

/-- To ask first whether a key has upper case changes no answer. -/
theorem resolve_eq (table : Table) (key : String) :
    table.resolve key = (table.get? key).or (table.get? (lowerCase key)) := by
  unfold resolve
  cases found : table.get? key with
  | some value => rfl
  | none =>
    cases upper : hasUpperCase key with
    | true => rfl
    | false => rw [lowerCase_eq_self upper, found]; rfl

theorem get?_eq_none_of_upper (lower : ∀ key ∈ table.keys, hasUpperCase key = false) {key : String}
    (upper : hasUpperCase key = true) : table.get? key = none := by
  rw [Option.eq_none_iff_forall_ne_some]
  intro value found
  rw [lower key (Dict.mem_keys_of_get? found)] at upper
  cases upper

/-- Without upper case in a table only the lower case of a value matters. -/
theorem resolve_of_lower (lower : ∀ key ∈ table.keys, hasUpperCase key = false) (key : String) :
    table.resolve key = table.get? (lowerCase key) := by
  rw [resolve_eq]
  cases upper : hasUpperCase key with
  | true => rw [get?_eq_none_of_upper lower upper, Option.none_or]
  | false => rw [lowerCase_eq_self upper, Option.or_self]

theorem resolve_eq_of_sameButCase (lower : ∀ key ∈ table.keys, hasUpperCase key = false)
    {u v : String} (same : SameButCase u v) : table.resolve u = table.resolve v := by
  rw [resolve_of_lower lower, resolve_of_lower lower, sameButCase_iff.1 same]

end Table

variable {tree : Tree}

/-- A look-up leads from values that resolve alike to the same states. -/
theorem Step.successors_lookup_congr {table : Table} {u v : String}
    (same : table.resolve u = table.resolve v) (name : String) (withDefault : Bool)
    (node : Fin tree.size) (defaults : List String) :
    (lookup name table withDefault).successors ⟨⟨node, u⟩, defaults⟩ =
      (lookup name table withDefault).successors ⟨⟨node, v⟩, defaults⟩ := by
  cases withDefault <;> simp only [successors, lookUp, same]

theorem Plan.run_result_congr {plan : Plan} {index : Nat} {name : String} {table : Table}
    {withDefault : Bool} (here : plan.steps[index]? = some (.lookup name table withDefault))
    {u v : String} (same : table.resolve u = table.resolve v) (node : Fin tree.size)
    (defaults : List String) :
    (plan.run tree index ⟨⟨node, u⟩, defaults⟩).result =
      (plan.run tree index ⟨⟨node, v⟩, defaults⟩).result := by
  have place : ⟨index, plan.next? index, .lookup name table withDefault⟩ ∈ plan.placed :=
    mem_placed_iff.2 ⟨here, rfl⟩
  rw [run_of_placed place, run_of_placed place, Step.successors_lookup_congr same]
  rfl

/-- Only forms become look-ups, each with the table of its name. -/
theorem Form.exists_of_lookup_mem_steps {tables : String → Table} {policy : VersionPolicy}
    {negated : Bool} {forms : List Form} {ops : List PathOp} {name : String} {table : Table}
    {withDefault : Bool}
    (mem : .lookup name table withDefault ∈ steps tables policy negated forms ops) :
    ∃ default, .lookup name default ∈ forms ∧ table = tables name := by
  simp only [steps, List.mem_append, or_assoc] at mem
  rcases mem with test | opening | taken | closed
  · cases negated <;> simp at test
  · obtain ⟨form, -, ready⟩ := List.mem_filterMap.1 opening
    obtain ⟨value, -, push⟩ := Option.map_eq_some_iff.1 ready
    cases push
  · obtain ⟨op, -, path⟩ := List.mem_map.1 taken
    cases path
  · obtain ⟨form, mem, acts⟩ := List.mem_map.1 closed
    cases form with
    | lookup name' default =>
      obtain ⟨rfl, rfl, -⟩ := Step.lookup.inj acts
      exact ⟨default, List.mem_reverse.1 mem, rfl⟩
    | cleanVersion => cases acts

/-- Each look-up of a compiled pattern uses the table that is registered under its name. -/
theorem get?_of_lookup_mem_steps {registry : Registry} {options : Options} {pattern : Pattern}
    {c : Compiled} (compiled : compile registry options pattern = .ok c) {name : String}
    {table : Table} {withDefault : Bool} (mem : .lookup name table withDefault ∈ c.plan.steps) :
    registry.get? name = some table := by
  obtain ⟨negated, forms, same, known⟩ := exists_enclose_of_compile compiled
  obtain ⟨c', compiled', steps, -⟩ := compile_enclose options pattern.ops known negated
  rw [← same, compiled] at compiled'
  obtain rfl : c = c' := Except.ok.inj compiled'
  rw [steps] at mem
  obtain ⟨default, form, rfl⟩ := Form.exists_of_lookup_mem_steps mem
  exact known _ form

/-- A key is resolved under the last entry with this key in the last table of the name, or else under
the last one with its form in lower case. A table without upper case resolves alike what differs in
case only, and so a walk from a look-up in such a table has one result. The look-ups of a compiled
pattern use the tables registered last. -/
theorem resolve_by_last_entries (tables : List (String × List (String × String))) :
    (∀ name, (∀ entries, lastUnder? name tables = some entries →
        ∃ table, (Registry.ofTables tables).get? name = some table ∧ ∀ key, table.resolve key =
          (lastUnder? key entries).or (lastUnder? (lowerCase key) entries)) ∧
      (lastUnder? name tables = none → (Registry.ofTables tables).get? name = none)) ∧
    (∀ table : Table, (∀ key ∈ table.keys, hasUpperCase key = false) →
      ∀ u v, SameButCase u v → table.resolve u = table.resolve v ∧
        ∀ (plan : Plan) (index : Nat) (name : String) (withDefault : Bool),
          plan.steps[index]? = some (.lookup name table withDefault) →
          ∀ (tree : Tree) (node : Fin tree.size) (defaults : List String),
            (plan.run tree index ⟨⟨node, u⟩, defaults⟩).result =
              (plan.run tree index ⟨⟨node, v⟩, defaults⟩).result) ∧
    ∀ (options : Options) (pattern : Pattern) (c : Compiled),
      compile (Registry.ofTables tables) options pattern = .ok c →
      ∀ (index : Nat) (name : String) (table : Table) (withDefault : Bool),
        c.plan.steps[index]? = some (.lookup name table withDefault) →
        (Registry.ofTables tables).get? name = some table := by
  refine ⟨fun name => ⟨fun entries last => ?_, fun missing => ?_⟩, fun table lower u v same => ?_,
    fun options pattern c compiled index name table withDefault here => ?_⟩
  · refine ⟨Dict.ofList entries, by rw [Registry.get?_ofTables, last]; rfl, fun key => ?_⟩
    rw [Table.resolve_eq, Dict.get?_ofList, Dict.get?_ofList]
  · rw [Registry.get?_ofTables, missing]
    rfl
  · have alike := Table.resolve_eq_of_sameButCase lower same
    exact ⟨alike, fun plan index name withDefault here tree node defaults =>
      Plan.run_result_congr here alike node defaults⟩
  · exact get?_of_lookup_mem_steps compiled (List.mem_of_getElem? here)

/-- Upper case among the keys is found before lower case. Without it, a value in upper case finds the
key in lower case, but an accented letter has no case. -/
theorem resolve_by_last_entries_letters :
    let tables := [("mixed", [("old", "x")]),
      ("lower", [("a", "first"), ("é", "accent"), ("a", "last")]),
      ("mixed", [("k", "first"), ("K", "upper"), ("k", "last")])]
    let registry := Registry.ofTables tables
    ∃ mixed lower c, registry.get? "mixed" = some mixed ∧ mixed.resolve "k" = some "last" ∧
      mixed.resolve "K" = some "upper" ∧ mixed.resolve "old" = none ∧
      registry.get? "other" = none ∧
      compile registry {} (.lookup "lower" (some "?") (.path [.move .up])) = .ok c ∧
      c.plan.steps[2]? = some (.lookup "lower" lower true) ∧ registry.get? "lower" = some lower ∧
      lower.resolve "É" = none ∧ (∀ key ∈ lower.keys, hasUpperCase key = false) ∧
      SameButCase "A" "a" ∧ lower.resolve "A" = lower.resolve "a" ∧
      ∀ (tree : Tree) (node : Fin tree.size) (defaults : List String),
        (c.plan.run tree 2 ⟨⟨node, "A"⟩, defaults⟩).result =
          (c.plan.run tree 2 ⟨⟨node, "a"⟩, defaults⟩).result := by
  intro tables registry
  let lower : Table := Dict.ofList [("a", "first"), ("é", "accent"), ("a", "last")]
  obtain ⟨named, alike, uses⟩ := resolve_by_last_entries tables
  obtain ⟨mixed, found, resolved⟩ :=
    (named "mixed").1 [("k", "first"), ("K", "upper"), ("k", "last")] (by decide)
  have same : SameButCase "A" "a" := sameButCase_iff.2 (by decide)
  have plain : ∀ key ∈ lower.keys, hasUpperCase key = false := by decide
  obtain ⟨together, walks⟩ := alike lower plain "A" "a" same
  let steps : List Step := [.pushDefault "?", .path (.move .up), .lookup "lower" lower true]
  let pattern : Pattern := .lookup "lower" (some "?") (.path [.move .up])
  have compiled : compile registry {} pattern = .ok ⟨⟨steps, none⟩, [], dump pattern steps⟩ := rfl
  refine ⟨mixed, lower, _, found, ?_, ?_, ?_, (named "other").2 (by decide), compiled, rfl,
    uses _ _ _ compiled 2 "lower" lower true rfl, by decide, plain, same, together,
    walks ⟨steps, none⟩ 2 "lower" true rfl⟩
  · rw [resolved]
    decide
  · rw [resolved]
    decide
  · rw [resolved]
    decide

end TreePattern
