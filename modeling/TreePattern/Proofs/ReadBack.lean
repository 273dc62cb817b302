import TreePattern.Json.Options
import TreePattern.Json.Pattern
import TreePattern.Json.Table
import TreePattern.Json.Tree
/-!
What is written as JSON is read back as it was. Ranges, trees and dictionaries are checked or put in
order when they are read, and pass unchanged because what was written was in order before. A
pattern that is read, from objects or from arrays, has just the ranges whose ends stand in the JSON,
and each of them is checked.
-/
namespace TreePattern

/-- A reader finds what a writer wrote, whatever it was. -/
def ReadsBack {α : Type} (write : α → Json) (read : Json → Read α) : Prop :=
  ∀ a, read (write a) = .ok a

namespace ReadsBack

variable {α : Type} {write : α → Json} {read : Json → Read α}

theorem list (back : ReadsBack write read) :
    ReadsBack (fun xs : List α => .arr (xs.map write)) (Json.readList read) := by
  intro xs
  induction xs with
  | nil => rfl
  | cons x xs ih =>
    have tail : (xs.map write).mapM read = .ok xs := ih
    change ((x :: xs).map write).mapM read = .ok (x :: xs)
    rw [List.map_cons, List.mapM_cons, back x, tail]
    rfl

/-- A value that is never written as nothing may be missing. -/
theorem option (back : ReadsBack write read) (present : ∀ a, write a ≠ .null) :
    ReadsBack (Json.ofOption write) fun j => Json.readOption read (some j) := by
  intro o
  cases o with
  | none => rfl
  | some a =>
    have given : Json.readOption read (some (write a)) = some <$> read (write a) := by
      cases h : write a with
      | null => exact absurd h (present a)
      | _ => rfl
    change Json.readOption read (some (write a)) = .ok (some a)
    rw [given, back a]
    rfl

theorem dict (back : ReadsBack write read) :
    ReadsBack (Json.ofDict write) (Json.readDict read) := by
  intro d
  have entries : (d.entries.map fun e => (e.1, write e.2)).mapM
      (fun m => do return (m.1, ← read m.2)) = (.ok d.entries : Read _) := by
    induction d.entries with
    | nil => rfl
    | cons e rest ih =>
      rw [List.map_cons, List.mapM_cons, ih, back e.2]
      rfl
  rw [Json.ofDict, Json.readDict, entries]
  exact congrArg Except.ok d.ofList_entries

end ReadsBack

theorem readString_str : ReadsBack .str Json.readString := fun _ => rfl

theorem ChildRange.ofJson_toJson : ReadsBack toJson ofJson := by
  intro r
  simp [ofJson, toJson, Json.readPair, Json.require, Json.field?_cons, Read.ofExcept, bind,
    Except.bind, pure, Except.pure]

theorem WordRange.ofJson_toJson : ReadsBack toJson ofJson := by
  intro r
  simp [ofJson, toJson, Json.readPair, Json.require, Json.field?_cons, Read.ofExcept, bind,
    Except.bind, pure, Except.pure]

theorem Settings.ofJson_toJson : ReadsBack toJson ofJson := by
  intro settings
  simp [ofJson, toJson, ofParts, Json.readD, Json.readBool, Json.field?_cons, bind, Except.bind,
    pure, Except.pure]

theorem Registry.ofJson_toJson : ReadsBack toJson ofJson := readString_str.dict.dict

theorem Node.ofJson_toJson : ReadsBack toJson ofJson := by
  intro n
  have number : ReadsBack (fun p => .int (Int.ofNat p)) Json.readNat := fun _ => rfl
  have parent := number.option (fun _ => Json.noConfusion) n.parent
  have children := number.list n.children
  rw [toJson, ofJson]
  simp only [Json.field?_cons, String.reduceEq, if_true, if_false, Json.require, parent, children,
    readString_str n.name, readString_str n.text]
  rfl

/-- Of an array of nodes that was written as JSON the check has the last word. -/
theorem Tree.ofJson_nodes (nodes : Array Node) :
    ofJson (.obj [("nodes", .arr (nodes.toList.map Node.toJson))]) =
      Read.ofExcept ((ofNodes nodes).mapError Error.tree) := by
  have read : Json.require (Json.readList Node.ofJson)
      (Json.field? "nodes" [("nodes", .arr (nodes.toList.map Node.toJson))]) = .ok nodes.toList :=
    Node.ofJson_toJson.list nodes.toList
  rw [ofJson]
  change (do
    let nodes ← Json.require (Json.readList Node.ofJson)
      (Json.field? "nodes" [("nodes", .arr (nodes.toList.map Node.toJson))])
    Read.ofExcept ((ofNodes nodes.toArray).mapError Error.tree)) = _
  rw [read]
  rfl

/-- A tree passes the check again that it passed when it was made. -/
theorem Tree.ofJson_toJson : ReadsBack toJson ofJson := by
  intro tree
  rw [toJson, ofJson_nodes, ofNodes_nodes]
  rfl

theorem PathOp.ofJson_toJson : ReadsBack toJson ofJson := by
  intro op
  cases op with
  | down range name =>
    have named := readString_str.option (fun _ => Json.noConfusion) name
    rw [toJson, ofJson, ofField, readDown]
    simp only [Json.field?_cons, String.reduceEq, if_true, if_false, Json.require, named,
      ChildRange.ofJson_toJson range]
    rfl
  | move direction => cases direction <;> rfl
  | test comparison literal => cases comparison <;> rfl
  | words range =>
    rw [toJson, ofJson, ofField, WordRange.ofJson_toJson range]
    rfl
  | full => rfl
  | fixed value => rfl

theorem pathOfJson_pathToJson : ReadsBack pathToJson pathOfJson := by
  intro ops
  induction ops with
  | nil => rw [pathToJson, pathOfJson]
  | cons op rest ih =>
    rw [pathToJson, pathOfJson]
    simp [Json.field?_cons, Json.require, ih, PathOp.ofJson_toJson op, bind, Except.bind, pure,
      Except.pure]

theorem chainOfJson_pathToJson {ops : List PathOp} (nonempty : ops ≠ []) :
    chainOfJson (pathToJson ops) = .ok ops := by
  obtain ⟨op, rest, rfl⟩ := List.exists_cons_of_ne_nil nonempty
  exact pathOfJson_pathToJson (op :: rest)

theorem Pattern.ofJson_toJson : ReadsBack toJson ofJson := by
  intro pattern
  induction pattern with
  | path ops =>
    rw [toJson, ofJson, pathOfJson_pathToJson ops]
    rfl
  | lookup table default inner ih =>
    have defaulted := readString_str.option (fun _ => Json.noConfusion) default
    rw [toJson, ofJson]
    simp [Json.field?_cons, Json.require, defaulted, ih, readString_str table, bind, Except.bind,
      pure, Except.pure]
  | cleanVersion inner ih =>
    rw [toJson, ofJson, ih]
    rfl
  | isNull inner ih =>
    rw [toJson, ofJson, ih]
    rfl

/-- The two ends of a range, in order or not. -/
inductive Bounds where
  | children (first last : UInt64)
  | words (first last : Int32)
  deriving DecidableEq, Repr

/-- The check that a range makes of its ends. -/
def Bounds.check : Bounds → Except Error Unit
  | .children first last => (ChildRange.ofBounds first last).map fun _ => ()
  | .words first last => (WordRange.ofBounds first last).map fun _ => ()

def PathOp.bounds : PathOp → List Bounds
  | .down range _ => [.children range.first range.last]
  | .words range => [.words range.first range.last]
  | .move _ | .test _ _ | .full | .fixed _ => []

/-- The ends of all ranges of a pattern. -/
def Pattern.bounds (pattern : Pattern) : List Bounds := pattern.ops.flatMap PathOp.bounds

theorem PathOp.check_of_mem_bounds {op : PathOp} {b : Bounds} (h : b ∈ op.bounds) :
    b.check = .ok () := by
  cases op with
  | down range name =>
    rw [List.mem_singleton.1 h, Bounds.check, ChildRange.ofBounds_bounds]
    rfl
  | words range =>
    rw [List.mem_singleton.1 h, Bounds.check, WordRange.ofBounds_bounds]
    rfl
  | _ => cases h

namespace Json

/-- The ends of a range of children where a range stands, if there are two numbers. -/
def childBounds (j : Json) : List Bounds :=
  match j.readPair readUInt64 "start" "end" with
  | .ok (first, last) => [.children first last]
  | .error _ => []

def wordBounds (j : Json) : List Bounds :=
  match j.readPair readInt32 "first" "last" with
  | .ok (first, last) => [.words first last]
  | .error _ => []

/-- The ends of the range in the JSON form of an operation, if the operation has one. -/
def opBounds : Json → List Bounds
  | .obj [("Down", .obj members)] => ((field? "range" members).map childBounds).getD []
  | .obj [("WordRange", range)] => range.wordBounds
  | _ => []

/-- The ends of all ranges in the JSON form of a path, a chain of objects or arrays. -/
def pathBounds : Json → List Bounds
  | .obj members =>
    ((field? "op" members).map opBounds).getD [] ++
      match _h : field? "next" members with
      | some next => next.pathBounds
      | none => []
  | .arr [op, next] => op.opBounds ++ next.pathBounds
  | _ => []
termination_by j => sizeOf j
decreasing_by
  · have := sizeOf_lt_of_field? _h
    simp only [Json.obj.sizeOf_spec]
    omega
  · simp only [Json.arr.sizeOf_spec, List.cons.sizeOf_spec]
    omega

theorem pathBounds_obj (members : List (String × Json)) :
    (obj members).pathBounds = ((field? "op" members).map opBounds).getD [] ++
      ((field? "next" members).map pathBounds).getD [] := by
  rw [pathBounds]
  split <;> simp [*]

/-- The ends of all ranges in the JSON form of a pattern. -/
def bounds : Json → List Bounds
  | .obj [("Path", path)] => path.pathBounds
  | .obj [("Lookup", .obj members)] =>
    match _h : field? "inner" members with
    | some inner => inner.bounds
    | none => []
  | .obj [("CleanVersion", inner)] => inner.bounds
  | .obj [("IsNull", inner)] => inner.bounds
  | _ => []
termination_by j => sizeOf j
decreasing_by
  · have := sizeOf_lt_of_field? _h
    simp only [Json.obj.sizeOf_spec, List.cons.sizeOf_spec, Prod.mk.sizeOf_spec]
    omega
  · simp only [Json.obj.sizeOf_spec, List.cons.sizeOf_spec, Prod.mk.sizeOf_spec]
    omega
  · simp only [Json.obj.sizeOf_spec, List.cons.sizeOf_spec, Prod.mk.sizeOf_spec]
    omega

theorem bounds_lookup (members : List (String × Json)) :
    (obj [("Lookup", .obj members)]).bounds = ((field? "inner" members).map bounds).getD [] := by
  rw [bounds]
  split <;> simp [*]

end Json

theorem exists_of_map_eq_ok {ε α β : Type} {x : Except ε α} {f : α → β} {b : β}
    (h : f <$> x = .ok b) : ∃ a, x = .ok a ∧ f a = b := by
  cases x with
  | error e => cases h
  | ok a => exact ⟨a, rfl, Except.ok.inj h⟩

theorem Json.exists_of_require {α : Type} {read : Json → Read α} {place : Option Json} {a : α}
    (h : require read place = .ok a) : ∃ j, place = some j ∧ read j = .ok a := by
  cases place with
  | none => cases h
  | some j => exact ⟨j, rfl, h⟩

/-- A check that passes hands over what it has checked. -/
theorem Read.eq_ok_of_ofExcept {α : Type} {x : Except Error α} {a : α}
    (h : Read.ofExcept x = .ok a) : x = .ok a := by
  cases x with
  | error e => cases h
  | ok a' => exact congrArg Except.ok (Except.ok.inj h)

/-- A pair that makes something was read with the ends of what it makes. -/
theorem Json.readPair_of_made {α β : Type} {j : Json} {read : Json → Read α} {start stop : String}
    {make : α → α → Except Error β} {ends : β → α × α}
    (kept : ∀ {first last b}, make first last = .ok b → (first, last) = ends b) {b : β}
    (h : (do
      let (first, last) ← j.readPair read start stop
      Read.ofExcept (make first last)) = .ok b) : j.readPair read start stop = .ok (ends b) := by
  obtain ⟨⟨first, last⟩, found, made⟩ := exists_of_bind_eq_ok h
  rw [found, kept (Read.eq_ok_of_ofExcept made)]

theorem ChildRange.readPair_of_ofJson {j : Json} {r : ChildRange} (h : ofJson j = .ok r) :
    j.readPair Json.readUInt64 "start" "end" = .ok (r.first, r.last) :=
  Json.readPair_of_made (fun made => bounds_of_ofBounds made) h

theorem WordRange.readPair_of_ofJson {j : Json} {r : WordRange} (h : ofJson j = .ok r) :
    j.readPair Json.readInt32 "first" "last" = .ok (r.first, r.last) :=
  Json.readPair_of_made (fun made => bounds_of_ofBounds made) h

namespace PathOp

theorem bounds_of_ofName {name : String} {op : PathOp} (h : ofName name = .ok op) :
    op.bounds = [] := by
  unfold ofName at h
  split at h <;> cases h <;> rfl

/-- Only two fields lead to an operation with a range. -/
theorem bounds_of_ofField {key : String} {data : Json} {op : PathOp} (down : key ≠ "Down")
    (words : key ≠ "WordRange") (h : ofField key data = .ok op) : op.bounds = [] := by
  unfold ofField at h
  split at h
  case h_1 => exact absurd rfl down
  case h_7 => exact absurd rfl words
  case h_9 =>
    split at h
    · exact bounds_of_ofName h
    · cases h
  all_goals
    obtain ⟨text, -, rfl⟩ := exists_of_map_eq_ok h
    rfl

theorem exists_of_readDown {data : Json} {op : PathOp} (h : readDown data = .ok op) :
    ∃ members place range name, data = .obj members ∧ op = .down range name ∧
      Json.field? "range" members = some place ∧ ChildRange.ofJson place = .ok range := by
  unfold readDown at h
  split at h
  · next members =>
    obtain ⟨name, -, h⟩ := exists_of_bind_eq_ok h
    obtain ⟨range, required, made⟩ := exists_of_bind_eq_ok h
    obtain ⟨place, there, read⟩ := Json.exists_of_require required
    exact ⟨members, place, range, name, rfl, (Except.ok.inj made).symm, there, read⟩
  · cases h

/-- An operation is read with the range whose ends stand in its JSON form. -/
theorem opBounds_of_ofJson {j : Json} {op : PathOp} (h : ofJson j = .ok op) :
    j.opBounds = op.bounds := by
  unfold ofJson at h
  split at h
  · exact (bounds_of_ofName h).symm
  · next key data =>
    by_cases down : key = "Down"
    · subst down
      obtain ⟨members, place, range, name, rfl, rfl, there, read⟩ := exists_of_readDown h
      rw [Json.opBounds, there, Option.map_some, Option.getD_some, Json.childBounds,
        ChildRange.readPair_of_ofJson read, bounds]
    · by_cases words : key = "WordRange"
      · subst words
        obtain ⟨range, read, rfl⟩ := exists_of_map_eq_ok h
        rw [Json.opBounds, Json.wordBounds, WordRange.readPair_of_ofJson read, bounds]
      · rw [bounds_of_ofField down words h]
        unfold Json.opBounds
        split <;> simp_all
  · cases h

end PathOp

/-- A path is read from nothing at its end, and before from an object or an array that holds an
operation and the rest of the path. -/
theorem exists_of_pathOfJson {j : Json} {ops : List PathOp} (h : pathOfJson j = .ok ops) :
    (j = .null ∧ ops = []) ∨
      ∃ op rest place, ops = op :: rest ∧ PathOp.ofJson place = .ok op ∧
        ((∃ members, j = .obj members ∧ Json.field? "op" members = some place ∧
            (Json.field? "next" members = none ∧ rest = [] ∨
              ∃ next, Json.field? "next" members = some next ∧ pathOfJson next = .ok rest)) ∨
          ∃ next, j = .arr [place, next] ∧ pathOfJson next = .ok rest) := by
  unfold pathOfJson at h
  split at h
  · exact .inl ⟨rfl, (Except.ok.inj h).symm⟩
  · next members =>
    split at h
    · next last =>
      obtain ⟨op, required, made⟩ := exists_of_bind_eq_ok h
      obtain ⟨place, there, read⟩ := Json.exists_of_require required
      exact .inr ⟨op, [], place, (Except.ok.inj made).symm, read,
        .inl ⟨members, rfl, there, .inl ⟨last, rfl⟩⟩⟩
    · next next more =>
      obtain ⟨rest, behind, h⟩ := exists_of_bind_eq_ok h
      obtain ⟨op, required, made⟩ := exists_of_bind_eq_ok h
      obtain ⟨place, there, read⟩ := Json.exists_of_require required
      exact .inr ⟨op, rest, place, (Except.ok.inj made).symm, read,
        .inl ⟨members, rfl, there, .inr ⟨next, more, behind⟩⟩⟩
  · next place next extra =>
    obtain ⟨op, read, h⟩ := exists_of_bind_eq_ok h
    obtain ⟨rest, behind, made⟩ := exists_of_bind_eq_ok h
    cases extra with
    | nil =>
      exact .inr ⟨op, rest, place, (Except.ok.inj made).symm, read, .inr ⟨next, rfl, behind⟩⟩
    | cons item extra => cases made
  · obtain ⟨op, -, h⟩ := exists_of_bind_eq_ok h
    cases h
  · cases h

/-- A path is read with the ranges whose ends stand in its JSON form. -/
theorem pathBounds_of_pathOfJson {j : Json} {ops : List PathOp} (h : pathOfJson j = .ok ops) :
    j.pathBounds = ops.flatMap PathOp.bounds := by
  induction ops generalizing j with
  | nil =>
    rcases exists_of_pathOfJson h with ⟨rfl, -⟩ | ⟨op, rest, place, split, -⟩
    · simp [Json.pathBounds]
    · cases split
  | cons op rest ih =>
    rcases exists_of_pathOfJson h with ⟨-, split⟩ | ⟨_, _, place, split, read, shape⟩
    · cases split
    · obtain ⟨rfl, rfl⟩ := List.cons.inj split
      rw [List.flatMap_cons, ← PathOp.opBounds_of_ofJson read]
      rcases shape with ⟨members, rfl, there, ⟨last, rfl⟩ | ⟨next, more, behind⟩⟩ |
        ⟨next, rfl, behind⟩
      · simp [Json.pathBounds_obj, there, last]
      · simp [Json.pathBounds_obj, there, more, ih behind]
      · rw [Json.pathBounds, ih behind]

namespace Pattern

/-- A form is read from the object that names it, and what it encloses from its place in there. -/
theorem exists_of_ofJson {j : Json} {pattern : Pattern} (h : ofJson j = .ok pattern) :
    match pattern with
    | .path ops => ∃ data, j = .obj [("Path", data)] ∧ pathOfJson data = .ok ops
    | .lookup _ _ inner => ∃ members place, j = .obj [("Lookup", .obj members)] ∧
        Json.field? "inner" members = some place ∧ ofJson place = .ok inner
    | .cleanVersion inner => ∃ place, j = .obj [("CleanVersion", place)] ∧ ofJson place = .ok inner
    | .isNull inner => ∃ place, j = .obj [("IsNull", place)] ∧ ofJson place = .ok inner := by
  unfold ofJson at h
  split at h
  · obtain ⟨ops, read, rfl⟩ := exists_of_map_eq_ok h
    exact ⟨_, rfl, read⟩
  · obtain ⟨default, -, h⟩ := exists_of_bind_eq_ok h
    split at h
    · cases h
    · next place there =>
      obtain ⟨inner, read, h⟩ := exists_of_bind_eq_ok h
      obtain ⟨table, -, made⟩ := exists_of_bind_eq_ok h
      cases made
      exact ⟨_, place, rfl, there, read⟩
  · obtain ⟨inner, read, rfl⟩ := exists_of_map_eq_ok h
    exact ⟨_, rfl, read⟩
  · obtain ⟨inner, read, rfl⟩ := exists_of_map_eq_ok h
    exact ⟨_, rfl, read⟩
  · cases h

/-- A pattern is read with the ranges whose ends stand in its JSON form. -/
theorem bounds_of_ofJson {j : Json} {pattern : Pattern} (h : ofJson j = .ok pattern) :
    j.bounds = pattern.bounds := by
  induction pattern generalizing j with
  | path ops =>
    obtain ⟨data, rfl, read⟩ := exists_of_ofJson h
    rw [Json.bounds, pathBounds_of_pathOfJson read]
    rfl
  | lookup table default inner ih =>
    obtain ⟨members, place, rfl, there, read⟩ := exists_of_ofJson h
    rw [Json.bounds_lookup, there]
    exact ih read
  | cleanVersion inner ih =>
    obtain ⟨place, rfl, read⟩ := exists_of_ofJson h
    rw [Json.bounds]
    exact ih read
  | isNull inner ih =>
    obtain ⟨place, rfl, read⟩ := exists_of_ofJson h
    rw [Json.bounds]
    exact ih read

theorem check_of_mem_bounds {pattern : Pattern} {b : Bounds} (h : b ∈ pattern.bounds) :
    b.check = .ok () := by
  obtain ⟨op, -, here⟩ := List.mem_flatMap.1 h
  exact PathOp.check_of_mem_bounds here

end Pattern

/-- Every pattern, operation and path, every tree, grown or read, every range, all settings and all
lookup tables are read back from their JSON form as they were. Whatever JSON a pattern is read from,
the ranges that stand in it are just those of the pattern and each passes its check, and the pattern
is read back from its own JSON form. -/
theorem everything_reads_back :
    ReadsBack Pattern.toJson Pattern.ofJson ∧ ReadsBack PathOp.toJson PathOp.ofJson ∧
      (∀ ops : List PathOp, ops ≠ [] → chainOfJson (pathToJson ops) = .ok ops) ∧
      ReadsBack Tree.toJson Tree.ofJson ∧ ReadsBack ChildRange.toJson ChildRange.ofJson ∧
      ReadsBack WordRange.toJson WordRange.ofJson ∧ ReadsBack Settings.toJson Settings.ofJson ∧
      ReadsBack Registry.toJson Registry.ofJson ∧
      ∀ (j : Json) (pattern : Pattern), Pattern.ofJson j = .ok pattern →
        j.bounds = pattern.bounds ∧ (∀ b ∈ j.bounds, b.check = .ok ()) ∧
          Pattern.ofJson pattern.toJson = .ok pattern := by
  refine ⟨Pattern.ofJson_toJson, PathOp.ofJson_toJson, fun ops => chainOfJson_pathToJson,
    Tree.ofJson_toJson, ChildRange.ofJson_toJson, WordRange.ofJson_toJson, Settings.ofJson_toJson,
    Registry.ofJson_toJson, ?_⟩
  intro j pattern read
  have same := Pattern.bounds_of_ofJson read
  refine ⟨same, fun b mem => ?_, Pattern.ofJson_toJson pattern⟩
  rw [same] at mem
  exact Pattern.check_of_mem_bounds mem

theorem everything_reads_back_arrays :
    let j : Json := .obj [("CleanVersion", .obj [("Path", .arr [
      .obj [("Down", .obj [("range", .arr [.int 2, .int 3])])],
      .obj [("op", .obj [("WordRange", .arr [.int (-3), .int (-1)])])]])])]
    let ops : List PathOp :=
      [.down ⟨2, 3, by decide, by decide⟩ none, .words ⟨-3, -1, by decide⟩]
    let pattern : Pattern := .cleanVersion (.path ops)
    ops ≠ [] ∧ chainOfJson (pathToJson ops) = .ok ops ∧ Pattern.ofJson j = .ok pattern ∧
      j.bounds = [.children 2 3, .words (-3) (-1)] ∧ (∀ b ∈ j.bounds, b.check = .ok ()) ∧
      Pattern.ofJson pattern.toJson = .ok pattern := by
  intro j ops pattern
  have nonempty : ops ≠ [] := by simp [ops]
  have read : Pattern.ofJson j = .ok pattern := by
    have path : pathOfJson (.arr [
        .obj [("Down", .obj [("range", .arr [.int 2, .int 3])])],
        .obj [("op", .obj [("WordRange", .arr [.int (-3), .int (-1)])])]]) = .ok ops := by
      rw [pathOfJson, pathOfJson]
      rfl
    rw [Pattern.ofJson, Pattern.ofJson, path]
    rfl
  obtain ⟨-, -, chain, -, -, -, -, -, bounds⟩ := everything_reads_back
  obtain ⟨same, checked, back⟩ := bounds j pattern read
  exact ⟨nonempty, chain ops nonempty, read, same, checked, back⟩

end TreePattern
