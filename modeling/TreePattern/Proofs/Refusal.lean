import TreePattern.Proofs.Emission
/-!
Which patterns are refused, and why. A null test inside another form is met on the way down, before
any table is looked up, so it is blamed first, and the outermost one of several. A missing table is
met on the way back, so the innermost one of several is blamed. No option has a part in this, and
a pattern that is refused leaves no line in the sink.
-/
namespace TreePattern

namespace Pattern

/-- The forms of a pattern, the outermost first, each with all that it encloses. -/
def layers : Pattern → List Pattern
  | .path ops => [.path ops]
  | .lookup table default inner => .lookup table default inner :: inner.layers
  | .cleanVersion inner => .cleanVersion inner :: inner.layers
  | .isNull inner => .isNull inner :: inner.layers

def isNullTest : Pattern → Bool
  | .isNull _ => true
  | _ => false

/-- The table that the outermost form names in vain. -/
def missing? (registry : Registry) : Pattern → Option String
  | .lookup name _ _ => if registry.get? name = none then some name else none
  | _ => none

/-- The tables that are named in vain, the outermost look-up first. -/
def missingTables (registry : Registry) (pattern : Pattern) : List String :=
  pattern.layers.filterMap (missing? registry)

theorem missingTables_lookup (registry : Registry) (name : String) (default : Option String)
    (inner : Pattern) :
    (lookup name default inner).missingTables registry =
      (if registry.get? name = none then [name] else []) ++ inner.missingTables registry := by
  cases h : registry.get? name <;> simp [missingTables, layers, missing?, h]

theorem missingTables_cleanVersion (registry : Registry) (inner : Pattern) :
    (cleanVersion inner).missingTables registry = inner.missingTables registry := rfl

end Pattern

/-- The error with which a compilation ends, if it fails. -/
def refusal? : Except Failure Compiled → Option Error
  | .ok _ => none
  | .error f => some f.error

namespace Draft

/-- What a path finds answered does not depend on the steps made before. -/
theorem answered_foldl_visitOp_push (limit : UInt64) (ops : List PathOp) (d : Draft)
    (steps : List Step) :
    (ops.foldl (visitOp limit) (d.push steps)).answered =
      (ops.foldl (visitOp limit) d).answered := by
  cases entered : d.entered with
  | true =>
    rw [foldl_visitOp_of_entered limit ops entered,
      foldl_visitOp_of_entered limit ops (by simpa [push] using entered)]
    rfl
  | false =>
    obtain ⟨e₁, h₁⟩ := foldl_visitOp limit ops d.steps d.answered
    obtain ⟨e₂, h₂⟩ := foldl_visitOp limit ops (d.steps ++ steps) d.answered
    have same : d = ⟨false, d.steps, d.answered⟩ := by rw [← entered]
    rw [same, h₁, push, h₂]

/-- The outermost null test ends the visit before anything is answered. -/
theorem visit_of_nullTest (registry : Registry) (options : Options) {pattern form : Pattern}
    (h : pattern.layers.find? Pattern.isNullTest = some form) (d : Draft) :
    visit registry options pattern d = .error ⟨.innerNullTest form.text, d.answered⟩ := by
  induction pattern generalizing d with
  | path ops => cases h
  | lookup name default inner ih => rw [visit, ih h]; rfl
  | cleanVersion inner ih => rw [visit, ih h]; rfl
  | isNull inner ih =>
    obtain rfl : Pattern.isNull inner = form := by simpa [Pattern.layers, Pattern.isNullTest] using h
    rfl

/-- A look-up lets the visit inside it end as it does, and asks for its table only then. -/
theorem map_answered_visit_lookup (registry : Registry) (options : Options) (name : String)
    (default : Option String) (inner : Pattern) (d : Draft) :
    (visit registry options (.lookup name default inner) d).map answered = (do
      let answered ← (visit registry options inner
        (d.push (default.toList.map .pushDefault))).map answered
      if registry.get? name = none then throw ⟨.missingTable name, answered⟩ else return answered) := by
  rw [visit]
  cases visit registry options inner (d.push (default.toList.map .pushDefault)) with
  | error f => rfl
  | ok d' => cases registry.get? name <;> rfl

/-- Without a null test, the innermost missing table ends the visit when the path is done, and the
visit succeeds if there is none. -/
theorem map_answered_visit (registry : Registry) (options : Options) {pattern : Pattern}
    (plain : pattern.layers.find? Pattern.isNullTest = none) (d : Draft) :
    (visit registry options pattern d).map answered =
      let answered := (pattern.ops.foldl (visitOp options.settings.indexedWordLimit) d).answered
      match (pattern.missingTables registry).getLast? with
      | some name => .error ⟨.missingTable name, answered⟩
      | none => .ok answered := by
  induction pattern generalizing d with
  | path ops => rfl
  | lookup name default inner ih =>
    rw [map_answered_visit_lookup, ih plain, answered_foldl_visitOp_push,
      Pattern.missingTables_lookup, List.getLast?_append, Pattern.ops]
    cases (inner.missingTables registry).getLast? with
    | some table => rfl
    | none =>
      by_cases missing : registry.get? name = none
      · rw [if_pos missing]
        exact if_pos missing
      · rw [if_neg missing]
        exact if_neg missing
  | cleanVersion inner ih =>
    have inside := ih plain d
    rw [Pattern.missingTables_cleanVersion, Pattern.ops, ← inside, visit]
    cases visit registry options inner d <;> rfl
  | isNull inner ih => simp [Pattern.layers, Pattern.isNullTest] at plain

end Draft

/-- Compiling visits all forms but an outermost null test. -/
theorem exists_draftOf_eq_visit (registry : Registry) (options : Options) (pattern : Pattern) :
    ∃ core ready, draftOf registry options pattern =
        Draft.visit registry options core ((Draft.start options).push ready) ∧
      core.layers.find? Pattern.isNullTest = pattern.layers.tail.find? Pattern.isNullTest ∧
      core.missingTables registry = pattern.missingTables registry ∧ core.ops = pattern.ops := by
  have none_ready : (Draft.start options).push [] = Draft.start options := by simp [Draft.push]
  cases pattern with
  | isNull inner => exact ⟨inner, [.isNull], rfl, rfl, rfl, rfl⟩
  | path ops => exact ⟨.path ops, [], by rw [none_ready]; rfl, rfl, rfl, rfl⟩
  | lookup name default inner =>
    exact ⟨.lookup name default inner, [], by rw [none_ready]; rfl, rfl, rfl, rfl⟩
  | cleanVersion inner => exact ⟨.cleanVersion inner, [], by rw [none_ready]; rfl, rfl, rfl, rfl⟩

theorem compile_of_nullTest (registry : Registry) (options : Options) {pattern form : Pattern}
    (h : pattern.layers.tail.find? Pattern.isNullTest = some form) :
    compile registry options pattern = .error ⟨.innerNullTest form.text, []⟩ := by
  obtain ⟨core, ready, drafted, nullTest, -, -⟩ := exists_draftOf_eq_visit registry options pattern
  rw [compile, drafted, Draft.visit_of_nullTest registry options (nullTest.trans h)]
  rfl

theorem map_answered_compile (registry : Registry) (options : Options) {pattern : Pattern}
    (plain : pattern.layers.tail.find? Pattern.isNullTest = none) :
    (compile registry options pattern).map Compiled.answered =
      match (pattern.missingTables registry).getLast? with
      | some name => .error ⟨.missingTable name, options.settings.answered pattern.ops⟩
      | none => .ok (options.settings.answered pattern.ops) := by
  obtain ⟨core, ready, drafted, nullTest, missing, ops⟩ :=
    exists_draftOf_eq_visit registry options pattern
  obtain ⟨entered, path⟩ := Draft.foldl_visitOp_start options ready pattern.ops
  have visited := Draft.map_answered_visit registry options (nullTest.trans plain)
    ((Draft.start options).push ready)
  rw [missing, ops, path] at visited
  rw [← visited, compile, drafted]
  cases Draft.visit registry options core ((Draft.start options).push ready) <;> rfl

theorem compile_of_missingTable (registry : Registry) (options : Options) {pattern : Pattern}
    (plain : pattern.layers.tail.find? Pattern.isNullTest = none) {name : String}
    (last : (pattern.missingTables registry).getLast? = some name) :
    compile registry options pattern =
      .error ⟨.missingTable name, options.settings.answered pattern.ops⟩ := by
  have compiled := map_answered_compile registry options plain
  rw [last] at compiled
  cases h : compile registry options pattern with
  | error f =>
    rw [h] at compiled
    exact congrArg Except.error (Except.error.inj compiled)
  | ok c => rw [h] at compiled; cases compiled

theorem exists_compile_eq_ok (registry : Registry) (options : Options) {pattern : Pattern}
    (plain : pattern.layers.tail.find? Pattern.isNullTest = none)
    (found : pattern.missingTables registry = []) :
    ∃ c, compile registry options pattern = .ok c := by
  have compiled := map_answered_compile registry options plain
  rw [found] at compiled
  cases h : compile registry options pattern with
  | error f => rw [h] at compiled; cases compiled
  | ok c => exact ⟨c, rfl⟩

/-- The error of a compilation, read off the pattern and the registry alone. -/
theorem refusal?_compile (registry : Registry) (options : Options) (pattern : Pattern) :
    refusal? (compile registry options pattern) =
      match pattern.layers.tail.find? Pattern.isNullTest with
      | some form => some (.innerNullTest form.text)
      | none => (pattern.missingTables registry).getLast?.map .missingTable := by
  cases nullTest : pattern.layers.tail.find? Pattern.isNullTest with
  | some form =>
    rw [compile_of_nullTest registry options nullTest]
    rfl
  | none =>
    cases last : (pattern.missingTables registry).getLast? with
    | some name =>
      rw [compile_of_missingTable registry options nullTest last]
      rfl
    | none =>
      obtain ⟨c, h⟩ := exists_compile_eq_ok registry options nullTest (List.getLast?_eq_none_iff.1 last)
      rw [h]
      rfl

/-- A pattern is refused for its outermost inner null test, whatever tables are missing, or else for
the innermost look-up whose table is missing; every other pattern is compiled. No option changes
this, and a refusal leaves no line but those of the answered operations in the log. -/
theorem compile_refusal (registry : Registry) (options : Options) (pattern : Pattern) :
    (∀ form, pattern.layers.tail.find? Pattern.isNullTest = some form →
      compile registry options pattern = .error ⟨.innerNullTest form.text, []⟩ ∧
        (Error.innerNullTest form.text).message =
          "Invalid pattern: " ++ "IsNull is only allowed around a whole pattern: " ++ form.text) ∧
    (pattern.layers.tail.find? Pattern.isNullTest = none →
      (∀ name, (pattern.missingTables registry).getLast? = some name →
        compile registry options pattern =
            .error ⟨.missingTable name, options.settings.answered pattern.ops⟩) ∧
        (pattern.missingTables registry = [] → ∃ c, compile registry options pattern = .ok c)) ∧
    (∀ other, refusal? (compile registry other pattern) =
      refusal? (compile registry options pattern)) ∧
    ∀ f, compile registry options pattern = .error f →
      reported (compile registry options pattern) = ⟨[], f.answered.map answeredLine⟩ := by
  refine ⟨?_, fun plain => ⟨?_, ?_⟩, fun other => ?_, fun f h => ?_⟩
  · intro form h
    exact ⟨compile_of_nullTest registry options h, rfl⟩
  · intro name last
    exact compile_of_missingTable registry options plain last
  · exact exists_compile_eq_ok registry options plain
  · rw [refusal?_compile, refusal?_compile]
  · rw [h]
    rfl

theorem compile_refusal_brands :
    let registry := Registry.addTable .empty "brands" [("a", "Apple")]
    let ops : List PathOp := [.down .star none, .test .equals "x", .full]
    let form : Pattern := .isNull (.isNull (.path ops))
    let nested : Pattern := .lookup "makers" none (.cleanVersion form)
    let unknown : Pattern :=
      .isNull (.lookup "makers" none (.lookup "models" (some "y") (.lookup "brands" none (.path ops))))
    let verbose := Options.withSink {} .memory
    nested.layers.tail.find? Pattern.isNullTest = some form ∧
      nested.missingTables registry = ["makers"] ∧
      compile registry verbose nested = .error ⟨.innerNullTest form.text, []⟩ ∧
      unknown.layers.tail.find? Pattern.isNullTest = none ∧
      unknown.missingTables registry = ["makers", "models"] ∧
      compile registry verbose unknown =
        .error ⟨.missingTable "models", [.down .star none, .test .equals "x"]⟩ ∧
      reported (compile registry verbose unknown) =
        ⟨[], [.down .star none, .test .equals "x"].map answeredLine⟩ ∧
      refusal? (compile registry (verbose.withStaticIndex false) unknown) =
        refusal? (compile registry verbose unknown) := by
  intro registry ops form nested unknown verbose
  have inner : nested.layers.tail.find? Pattern.isNullTest = some form := by decide
  have plain : unknown.layers.tail.find? Pattern.isNullTest = none := by decide
  have missing : unknown.missingTables registry = ["makers", "models"] := by decide
  obtain ⟨refused, -, -, -⟩ := compile_refusal registry verbose nested
  obtain ⟨-, unrefused, same, silent⟩ := compile_refusal registry verbose unknown
  have last := (unrefused plain).1 "models" (by rw [missing]; rfl)
  exact ⟨inner, by decide, (refused form inner).1, plain, missing, last, silent _ last, same _⟩

end TreePattern
