import TreePattern.Plan.Compile
/-!
What compiling makes of a pattern, in closed form. A pattern without an inner null test is a path
with forms around it. It becomes one step for each default, then the operations that no index
answers, then one step for each form, from the inside out. Each operation that the index answers
leaves a line in the log instead.
-/
namespace TreePattern

/-- A form around a pattern, other than a null test. -/
inductive Form where
  | lookup (table : String) (default : Option String)
  | cleanVersion
  deriving DecidableEq, Repr

namespace Form

def around : Form → Pattern → Pattern
  | .lookup table default, inner => .lookup table default inner
  | .cleanVersion, inner => .cleanVersion inner

def default? : Form → Option String
  | .lookup _ default => default
  | .cleanVersion => none

/-- The step that makes the default of a form ready, if it has one. -/
def opening? (form : Form) : Option Step := form.default?.map .pushDefault

/-- The step that acts on the value of the path, given the table of each name. -/
def closing (tables : String → Table) (policy : VersionPolicy) : Form → Step
  | .lookup name default => .lookup name (tables name) default.isSome
  | .cleanVersion => .cleanVersion policy

/-- The registry holds the table that the form names. -/
def Known (registry : Registry) (tables : String → Table) : Form → Prop
  | .lookup name _ => registry.get? name = some (tables name)
  | .cleanVersion => True

/-- The steps before the path, the outermost form first. -/
def openings (forms : List Form) : List Step := forms.filterMap opening?

/-- The steps after the path, the innermost form first. -/
def closings (tables : String → Table) (policy : VersionPolicy) (forms : List Form) : List Step :=
  forms.reverse.map (closing tables policy)

@[simp] theorem openings_nil : openings [] = [] := rfl

@[simp] theorem openings_cons (form : Form) (forms : List Form) :
    openings (form :: forms) = form.opening?.toList ++ openings forms := by
  cases h : form.opening? <;> simp [openings, h]

@[simp] theorem closings_nil (tables : String → Table) (policy : VersionPolicy) :
    closings tables policy [] = [] := rfl

@[simp] theorem closings_cons (tables : String → Table) (policy : VersionPolicy) (form : Form)
    (forms : List Form) :
    closings tables policy (form :: forms) =
      closings tables policy forms ++ [form.closing tables policy] := by
  simp [closings]

end Form

/-- A path with forms around it, the outermost first. -/
def Pattern.enclose (forms : List Form) (ops : List PathOp) : Pattern :=
  forms.foldr Form.around (.path ops)

@[simp] theorem Pattern.enclose_nil (ops : List PathOp) : enclose [] ops = .path ops := rfl

@[simp] theorem Pattern.enclose_cons (form : Form) (forms : List Form) (ops : List PathOp) :
    enclose (form :: forms) ops = form.around (enclose forms ops) := rfl

/-- A pattern, or a null test around it. -/
def Pattern.negateIf (negated : Bool) (pattern : Pattern) : Pattern :=
  if negated then .isNull pattern else pattern

@[simp] theorem Pattern.negateIf_false (pattern : Pattern) : pattern.negateIf false = pattern := rfl

@[simp] theorem Pattern.negateIf_true (pattern : Pattern) :
    pattern.negateIf true = .isNull pattern := rfl

/-- The steps of a path inside forms, and of a null test around them if `negated`. -/
def Form.steps (tables : String → Table) (policy : VersionPolicy) (negated : Bool)
    (forms : List Form) (ops : List PathOp) : List Step :=
  (if negated then [.isNull] else []) ++ openings forms ++ ops.map .path ++
    closings tables policy forms

theorem WordRange.isIndexed_iff {r : WordRange} {limit : UInt64} :
    r.isIndexed limit ↔ r.first = 1 ∧ 1 ≤ r.last.toInt ∧ r.last.toInt ≤ limit.toNat := by
  have one : (1 : Int32) ≤ r.last ↔ 1 ≤ r.last.toInt := Int32.le_iff_toInt_le
  simp [isIndexed, one, and_assoc]

/-- An index can follow just the operations that leave the entry point open. -/
theorem PathOp.isIndexed_iff_gate {limit : UInt64} {op : PathOp} :
    op.isIndexed limit ↔ op.gate limit = .passive := by
  cases op with
  | words r =>
    by_cases h : r.isIndexed limit
    · simp [isIndexed, gate, h, WordRange.isIndexed_iff.1 h]
    · have := mt WordRange.isIndexed_iff.2 h
      simp [isIndexed, gate, h, and_assoc, this]
  | test comparison literal => cases comparison <;> simp [isIndexed, gate]
  | _ => simp [isIndexed, gate]

theorem PathOp.gate_eq_after_iff (limit : UInt64) {op : PathOp} :
    op.gate limit = .after ↔ ∃ literal, op = .test .equals literal := by
  cases op with
  | words r => simp only [gate]; split <;> simp
  | test comparison literal => cases comparison <;> simp [gate]
  | _ => simp [gate]

/-- The gate of the first operation decides how the count goes on. -/
theorem indexedCount_cons (limit : UInt64) (op : PathOp) (rest : List PathOp) :
    indexedCount limit (op :: rest) =
      match op.gate limit with
      | .passive => indexedCount limit rest + 1
      | .before => 0
      | .after => 1 := by
  cases gate : op.gate limit with
  | passive =>
    have follows := PathOp.isIndexed_iff_gate.2 gate
    rw [indexedCount, List.takeWhile_cons_of_pos follows, List.dropWhile_cons_of_pos follows,
      List.length_cons, Nat.add_right_comm]
    rfl
  | before =>
    have stops : ¬ op.isIndexed limit := fun h => by simp [PathOp.isIndexed_iff_gate.1 h] at gate
    rw [indexedCount, List.takeWhile_cons_of_neg stops, List.dropWhile_cons_of_neg stops]
    split
    · next literal _ eq =>
      have equality := (PathOp.gate_eq_after_iff limit).2 ⟨literal, (List.cons.inj eq).1⟩
      rw [gate] at equality
      cases equality
    · rfl
  | after =>
    obtain ⟨literal, rfl⟩ := (PathOp.gate_eq_after_iff limit).1 gate
    rfl

namespace Draft

@[simp] theorem push_push (d : Draft) (first last : List Step) :
    (d.push first).push last = d.push (first ++ last) := by
  simp [push]

/-- Past the entry point every operation becomes a step. -/
theorem foldl_visitOp_of_entered (limit : UInt64) (ops : List PathOp) {d : Draft}
    (h : d.entered = true) : ops.foldl (visitOp limit) d = d.push (ops.map .path) := by
  induction ops generalizing d with
  | nil => simp [push]
  | cons op rest ih =>
    have step : d.visitOp limit op = d.push [.path op] := by simp [visitOp, push, h]
    rw [List.foldl_cons, step, ih (by simpa [push] using h), push_push]
    rfl

/-- Before the entry point the operations that an index answers are passed over. -/
theorem foldl_visitOp (limit : UInt64) (ops : List PathOp) (steps : List Step)
    (answered : List PathOp) : ∃ entered,
    ops.foldl (visitOp limit) ⟨false, steps, answered⟩ =
      ⟨entered, steps ++ (ops.drop (indexedCount limit ops)).map .path,
        answered ++ ops.take (indexedCount limit ops)⟩ := by
  induction ops generalizing answered with
  | nil => exact ⟨false, by simp⟩
  | cons op rest ih =>
    rw [List.foldl_cons, indexedCount_cons]
    cases gate : op.gate limit with
    | passive =>
      have step : visitOp limit ⟨false, steps, answered⟩ op = ⟨false, steps, answered ++ [op]⟩ := by
        simp [visitOp, gate]
      obtain ⟨entered, h⟩ := ih (answered ++ [op])
      exact ⟨entered, by simp [step, h]⟩
    | before =>
      have step : visitOp limit ⟨false, steps, answered⟩ op =
          ⟨true, steps ++ [.path op], answered⟩ := by simp [visitOp, gate]
      exact ⟨true, by simp [step, foldl_visitOp_of_entered, push]⟩
    | after =>
      have step : visitOp limit ⟨false, steps, answered⟩ op = ⟨true, steps, answered ++ [op]⟩ := by
        simp [visitOp, gate]
      exact ⟨true, by simp [step, foldl_visitOp_of_entered, push]⟩

/-- The path of a pattern, from the start or behind steps that were made ready before. -/
theorem foldl_visitOp_start (options : Options) (ready : List Step) (ops : List PathOp) :
    ∃ entered, ops.foldl (visitOp options.settings.indexedWordLimit) ((start options).push ready) =
      ⟨entered, ready ++ (options.settings.remaining ops).map .path,
        options.settings.answered ops⟩ := by
  cases index : options.settings.staticIndex with
  | false =>
    refine ⟨true, ?_⟩
    rw [foldl_visitOp_of_entered _ _ (by simp [push, start, index])]
    simp [push, start, index, Settings.remaining, Settings.answered, Settings.answeredCount]
  | true =>
    have h := foldl_visitOp options.settings.indexedWordLimit ops ready []
    simpa [push, start, index, Settings.remaining, Settings.answered, Settings.answeredCount] using h

/-- Forms make their defaults ready before the path and act behind it, from the inside out. -/
theorem visit_enclose {registry : Registry} {tables : String → Table} (options : Options)
    {forms : List Form} (ops : List PathOp) (known : ∀ form ∈ forms, form.Known registry tables)
    (d : Draft) :
    visit registry options (Pattern.enclose forms ops) d =
      .ok ((ops.foldl (visitOp options.settings.indexedWordLimit)
        (d.push (Form.openings forms))).push (Form.closings tables options.policy forms)) := by
  -- The inner forms start from a draft that holds the default of the outer one.
  induction forms generalizing d with
  | nil => simp [Pattern.enclose, visit, push, pure, Except.pure]
  | cons form forms ih =>
    have inner := ih fun form h => known form (List.mem_cons_of_mem _ h)
    have outer := known form (List.mem_cons_self ..)
    cases form with
    | lookup name default =>
      have found : registry.get? name = some (tables name) := outer
      have ready : default.toList.map Step.pushDefault = (default.map Step.pushDefault).toList := by
        cases default <;> rfl
      rw [Pattern.enclose_cons, Form.around, visit, inner]
      simp [found, ready, bind, Except.bind, pure, Except.pure, Form.opening?,
        Form.default?, Form.closing]
    | cleanVersion =>
      rw [Pattern.enclose_cons, Form.around, visit, inner]
      simp [bind, Except.bind, pure, Except.pure, Form.opening?,
        Form.default?, Form.closing]

/-- Only a path inside forms that find their tables is visited to the end. -/
theorem exists_enclose_of_visit {registry : Registry} {options : Options} {pattern : Pattern}
    {d d' : Draft} (h : visit registry options pattern d = .ok d') :
    ∃ forms, pattern = Pattern.enclose forms pattern.ops ∧
      ∀ form ∈ forms, form.Known registry fun name => (registry.get? name).getD .empty := by
  induction pattern generalizing d d' with
  | path ops => exact ⟨[], rfl, by simp⟩
  | lookup name default inner ih =>
    obtain ⟨d₁, visited, closed⟩ := exists_of_bind_eq_ok h
    obtain ⟨forms, same, known⟩ := ih visited
    have found : Form.Known registry (fun name => (registry.get? name).getD .empty)
        (.lookup name default) := by
      cases get : registry.get? name with
      | none => rw [get] at closed; cases closed
      | some table => simp [Form.Known, get]
    refine ⟨.lookup name default :: forms, ?_, List.forall_mem_cons.2 ⟨found, known⟩⟩
    rw [Pattern.enclose_cons, Form.around, Pattern.ops, ← same]
  | cleanVersion inner ih =>
    obtain ⟨d₁, visited, -⟩ := exists_of_bind_eq_ok h
    obtain ⟨forms, same, known⟩ := ih visited
    refine ⟨.cleanVersion :: forms, ?_, List.forall_mem_cons.2 ⟨trivial, known⟩⟩
    rw [Pattern.enclose_cons, Form.around, Pattern.ops, ← same]
  | isNull inner ih => cases h

end Draft

theorem draftOf_enclose {registry : Registry} {tables : String → Table} (options : Options)
    {forms : List Form} (ops : List PathOp) (known : ∀ form ∈ forms, form.Known registry tables)
    (negated : Bool) : ∃ entered,
    draftOf registry options ((Pattern.enclose forms ops).negateIf negated) =
      .ok ⟨entered,
        Form.steps tables options.policy negated forms (options.settings.remaining ops),
        options.settings.answered ops⟩ := by
  cases negated with
  | true =>
    obtain ⟨entered, h⟩ := Draft.foldl_visitOp_start options (.isNull :: Form.openings forms) ops
    refine ⟨entered, ?_⟩
    rw [Pattern.negateIf_true, draftOf, Draft.visit_enclose options ops known,
      Draft.push_push, List.singleton_append, h]
    simp [Draft.push, Form.steps]
  | false =>
    obtain ⟨entered, h⟩ := Draft.foldl_visitOp_start options (Form.openings forms) ops
    refine ⟨entered, ?_⟩
    have plain : draftOf registry options (Pattern.enclose forms ops) =
        Draft.visit registry options (Pattern.enclose forms ops) (Draft.start options) := by
      cases forms with
      | nil => rfl
      | cons form forms => cases form <;> rfl
    rw [Pattern.negateIf_false, plain, Draft.visit_enclose options ops known, h]
    simp [Draft.push, Form.steps]

theorem stepsOf_eq_steps {registry : Registry} {tables : String → Table} (options : Options)
    {forms : List Form} (ops : List PathOp) (known : ∀ form ∈ forms, form.Known registry tables)
    (negated : Bool) :
    stepsOf registry options ((Pattern.enclose forms ops).negateIf negated) =
      .ok (Form.steps tables options.policy negated forms (options.settings.remaining ops)) := by
  obtain ⟨entered, h⟩ := draftOf_enclose options ops known negated
  rw [stepsOf, h]
  rfl

/-- A plan is assembled from the same draft from which it is compiled. -/
theorem compile_eq_assemble (registry : Registry) (options : Options) (pattern : Pattern) :
    compile registry options pattern = (assemble registry options pattern).map fun c =>
      { c with lines := dump pattern c.plan.steps } := by
  rw [compile, assemble]
  cases draftOf registry options pattern <;> rfl

theorem assemble_enclose {registry : Registry} {tables : String → Table} (options : Options)
    {forms : List Form} (ops : List PathOp) (known : ∀ form ∈ forms, form.Known registry tables)
    (negated : Bool) :
    assemble registry options ((Pattern.enclose forms ops).negateIf negated) =
      .ok ⟨⟨Form.steps tables options.policy negated forms (options.settings.remaining ops),
        options.activeSink⟩, options.settings.answered ops, []⟩ := by
  obtain ⟨entered, h⟩ := draftOf_enclose options ops known negated
  rw [assemble, h]
  rfl

theorem compile_enclose {registry : Registry} {tables : String → Table} (options : Options)
    {forms : List Form} (ops : List PathOp) (known : ∀ form ∈ forms, form.Known registry tables)
    (negated : Bool) : ∃ c,
    compile registry options ((Pattern.enclose forms ops).negateIf negated) = .ok c ∧
      c.plan.steps =
        Form.steps tables options.policy negated forms (options.settings.remaining ops) ∧
      c.answered = options.settings.answered ops := by
  rw [compile_eq_assemble, assemble_enclose options ops known]
  exact ⟨_, rfl, rfl, rfl⟩

/-- Only a path inside forms that find their tables is compiled, with or without a null test. -/
theorem exists_enclose_of_compile {registry : Registry} {options : Options} {pattern : Pattern}
    {c : Compiled} (h : compile registry options pattern = .ok c) :
    ∃ negated forms, pattern = (Pattern.enclose forms pattern.ops).negateIf negated ∧
      ∀ form ∈ forms, form.Known registry fun name => (registry.get? name).getD .empty := by
  obtain ⟨d, drafted, -⟩ := exists_of_bind_eq_ok h
  cases pattern with
  | isNull inner =>
    obtain ⟨forms, same, known⟩ := Draft.exists_enclose_of_visit drafted
    exact ⟨true, forms, congrArg Pattern.isNull same, known⟩
  | _ => exact ⟨false, Draft.exists_enclose_of_visit drafted⟩

/-- Operations that an index can follow, put in front of a path, are answered with the rest. -/
theorem remaining_append {settings : Settings} (index : settings.staticIndex = true)
    {front : List PathOp} (indexed : ∀ op ∈ front, op.isIndexed settings.indexedWordLimit)
    (ops : List PathOp) : settings.remaining (front ++ ops) = settings.remaining ops := by
  have follow : (front ++ ops).takeWhile (PathOp.isIndexed settings.indexedWordLimit) =
      front ++ ops.takeWhile (PathOp.isIndexed settings.indexedWordLimit) :=
    List.takeWhile_append_of_pos indexed
  have stop : (front ++ ops).dropWhile (PathOp.isIndexed settings.indexedWordLimit) =
      ops.dropWhile (PathOp.isIndexed settings.indexedWordLimit) :=
    List.dropWhile_append_of_pos indexed
  simp only [Settings.remaining, Settings.answeredCount, index, if_true, indexedCount, follow, stop,
    List.length_append]
  rw [Nat.add_assoc, ← List.drop_drop, List.drop_left]

/-- Compiled, a path inside forms is the defaults from the outside in, the operations that no index
answers, and the forms from the inside out. The operations that the index answers are logged, one
line for each, in order, and with no other line but those of the dump behind them. More of them in
front of the path change no step. -/
theorem stepsOf_enclose {registry : Registry} {tables : String → Table} (options : Options)
    {forms : List Form} (ops : List PathOp) (known : ∀ form ∈ forms, form.Known registry tables)
    (negated : Bool) :
    let pattern := (Pattern.enclose forms ops).negateIf negated
    let count := options.settings.answeredCount ops
    let steps := (if negated then [.isNull] else []) ++ forms.filterMap Form.opening? ++
      (ops.drop count).map .path ++ forms.reverse.map (Form.closing tables options.policy)
    let logged := (ops.take count).map answeredLine
    let dumped := deliver options.activeSink (dump pattern steps)
    stepsOf registry options pattern = .ok steps ∧
      (draftOf registry options pattern).map Draft.answered = .ok (ops.take count) ∧
      reported (assemble registry options pattern) = ⟨[], logged⟩ ∧
      reported (compile registry options pattern) = ⟨dumped.memory, logged ++ dumped.log⟩ ∧
      ∀ front : List PathOp, options.settings.staticIndex = true →
        (∀ op ∈ front, op.isIndexed options.settings.indexedWordLimit) →
        stepsOf registry options ((Pattern.enclose forms (front ++ ops)).negateIf negated) =
          stepsOf registry options pattern := by
  intro pattern count steps logged dumped
  have assembled : assemble registry options pattern =
      .ok ⟨⟨steps, options.activeSink⟩, ops.take count, []⟩ := assemble_enclose options ops known _
  refine ⟨stepsOf_eq_steps options ops known negated, ?_, ?_, ?_, ?_⟩
  · obtain ⟨entered, drafted⟩ := draftOf_enclose options ops known negated
    rw [drafted]
    rfl
  · rw [assembled, reported, deliver_nil, List.append_nil]
  · rw [compile_eq_assemble, assembled]
    rfl
  · intro front index indexed
    rw [stepsOf_eq_steps options _ known, stepsOf_eq_steps options _ known,
      remaining_append index indexed ops]

theorem stepsOf_enclose_brands :
    let registry := Registry.addTable .empty "brands" [("a", "Apple")]
    let tables := fun _ : String => (Dict.ofList [("a", "Apple")] : Table)
    let forms : List Form := [.cleanVersion, .lookup "brands" (some "Unknown")]
    let ops : List PathOp :=
      [.down .star (some "agent"), .test .equals "Chrome", .move .up, .test .equals "x", .full]
    let pattern := (Pattern.enclose forms ops).negateIf true
    let answered := ["TRACE treewalk::compiler: Resolved by static index, not compiled: " ++
      "Down((1-10)agent)", "TRACE treewalk::compiler: Resolved by static index, not compiled: " ++
      "Equals(Chrome)"]
    let verbose := Options.withVerbose {} true
    (∀ form ∈ forms, form.Known registry tables) ∧
      stepsOf registry verbose pattern =
        .ok [.isNull, .pushDefault "Unknown", .path (.move .up), .path (.test .equals "x"),
          .path .full, .lookup "brands" (tables "brands") true, .cleanVersion .canonical] ∧
      (draftOf registry verbose pattern).map Draft.answered =
        .ok [.down .star (some "agent"), .test .equals "Chrome"] ∧
      reported (assemble registry verbose pattern) = ⟨[], answered⟩ ∧
      (reported (compile registry verbose pattern)).memory = [] ∧
      (reported (compile registry verbose pattern)).log.take 3 = answered ++
        ["INFO treewalk::walk: ------------------------------------"] ∧
      (reported (compile registry verbose pattern)).log.length = 11 ∧
      stepsOf registry verbose ((Pattern.enclose forms (.fixed "y" :: ops)).negateIf true) =
        stepsOf registry verbose pattern := by
  intro registry tables forms ops pattern answered verbose
  have known : ∀ form ∈ forms, form.Known registry tables := by
    simp [forms, tables, registry, Form.Known, Registry.addTable, Dict.get?_insert]
  obtain ⟨steps, unstepped, assembled, compiled, unchanged⟩ :=
    stepsOf_enclose verbose ops known true
  have lines : (ops.take (verbose.settings.answeredCount ops)).map answeredLine = answered := by
    decide
  refine ⟨known, steps, unstepped, assembled.trans ?_, ?_, ?_, ?_,
    unchanged [.fixed "y"] rfl (by decide)⟩
  · rw [lines]
  · rw [compiled]
    rfl
  · rw [compiled, lines]
    rfl
  · rw [compiled]
    rfl

end TreePattern
