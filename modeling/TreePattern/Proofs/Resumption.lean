import TreePattern.Proofs.Entry
/-!
Two ways to skip what an index has answered. A plan compiled for the index leaves the answered
operations out; a plan that holds them all can be resumed behind them. Both begin at the same step
with the same defaults, so they agree from every point, also from one to which the answered
operations do not lead.
-/
namespace TreePattern

/-- The defaults of all look-ups that have one, the outermost first. -/
def Pattern.defaults : Pattern → List String
  | .path _ => []
  | .lookup _ default inner => default.toList ++ inner.defaults
  | .cleanVersion inner | .isNull inner => inner.defaults

namespace Form

def defaults (forms : List Form) : List String := forms.filterMap default?

@[simp] theorem defaults_nil : defaults [] = [] := rfl

@[simp] theorem defaults_cons (form : Form) (forms : List Form) :
    defaults (form :: forms) = form.default?.toList ++ defaults forms := by
  cases h : form.default? <;> simp [defaults, h]

@[simp] theorem length_openings (forms : List Form) :
    (openings forms).length = (defaults forms).length := by
  induction forms with
  | nil => rfl
  | cons form forms ih => cases h : form.default? <;> simp [opening?, h, ih]

theorem ne_isNull_of_mem_openings {forms : List Form} {step : Step}
    (h : step ∈ openings forms) : step ≠ .isNull := by
  rintro rfl
  simp [openings, opening?] at h

/-- Openings leave one default for each form that has one. -/
theorem foldl_pend_openings (forms : List Form) (pending : List String) :
    (openings forms).foldl pend pending = pending ++ defaults forms := by
  induction forms generalizing pending with
  | nil => simp
  | cons form forms ih => cases h : form.default? <;> simp [opening?, h, ih, pend]

end Form

@[simp] theorem Pattern.defaults_enclose (forms : List Form) (ops : List PathOp) :
    (enclose forms ops).defaults = Form.defaults forms := by
  induction forms with
  | nil => rfl
  | cons form forms ih => cases form <;> simp [Form.around, defaults, Form.default?, ih]

/-- A path uses up no default. -/
theorem foldl_pend_path (ops : List PathOp) (pending : List String) :
    (ops.map Step.path).foldl pend pending = pending := by
  induction ops with
  | nil => rfl
  | cons op ops ih => exact ih

variable {tree : Tree}

/-- Openings lead from a point to itself, with their defaults on the stack. -/
theorem reached_openings (forms : List Form) (p : Point tree) (defaults : List String) :
    reached tree (Form.openings forms) ⟨p, defaults⟩ =
      [⟨p, (Form.defaults forms).reverse ++ defaults⟩] := by
  induction forms generalizing defaults with
  | nil => rfl
  | cons form forms ih =>
    cases h : form.default? <;> simp [Form.opening?, h, ih, Step.successors]

/-- A plan without the answered operations begins behind them with all defaults. -/
theorem answer_openings (forms : List Form) (rest : List Step) (start : Point tree) :
    answer tree (Form.openings forms ++ rest) ⟨start, []⟩ =
      answer tree rest ⟨start, (Form.defaults forms).reverse⟩ := by
  rw [answer_append fun _ => Form.ne_isNull_of_mem_openings, reached_openings,
    List.findSome?_singleton, List.append_nil]

/-- A walk resumed between two parts of a plan runs the later one, with the defaults that the
earlier one leaves. -/
theorem Plan.walkFrom_length {plan : Plan} {first rest : List Step}
    (split : plan.steps = first ++ rest) (start : Point tree) :
    (plan.walkFrom tree first.length start).result =
      answer tree rest ⟨start, (first.foldl pend []).reverse⟩ := by
  rw [walkFrom_result, split, List.take_left, List.drop_left, stack_pendingDefaults]

/-- Resumed behind the answered operations, a plan that holds them begins with all defaults. -/
theorem walkFrom_answered {tables : String → Table} {policy : VersionPolicy} {negated : Bool}
    {forms : List Form} {answered remaining : List PathOp} {plan : Plan}
    (steps : plan.steps = Form.steps tables policy negated forms (answered ++ remaining))
    (start : Point tree) :
    (plan.walkFrom tree (negated.toNat + (Form.defaults forms).length + answered.length)
        start).result =
      answer tree (remaining.map .path ++ Form.closings tables policy forms)
        ⟨start, (Form.defaults forms).reverse⟩ := by
  let first : List Step :=
    (if negated then [.isNull] else []) ++ Form.openings forms ++ answered.map .path
  have split : plan.steps =
      first ++ (remaining.map .path ++ Form.closings tables policy forms) := by
    simp [steps, Form.steps, first]
  have length : first.length =
      negated.toNat + (Form.defaults forms).length + answered.length := by
    cases negated <;> simp [first, Nat.add_comm, Nat.add_left_comm]
  have pending : first.foldl pend [] = Form.defaults forms := by
    cases negated <;> simp [first, foldl_pend_path, Form.foldl_pend_openings, pend]
  rw [← length, Plan.walkFrom_length split, pending]

/-- A plan without the answered operations begins behind them with all defaults too. -/
theorem walk_remaining {tables : String → Table} {policy : VersionPolicy} {forms : List Form}
    {remaining : List PathOp} {plan : Plan}
    (steps : plan.steps = Form.steps tables policy false forms remaining) (start : Point tree) :
    (plan.walk tree start).result =
      answer tree (remaining.map .path ++ Form.closings tables policy forms)
        ⟨start, (Form.defaults forms).reverse⟩ := by
  have split : plan.steps = Form.openings forms ++
      (remaining.map .path ++ Form.closings tables policy forms) := by simp [steps, Form.steps]
  rw [Plan.walk_result, split, answer_openings]

/-- A plan for a null test fails where the plan for what it encloses succeeds. -/
theorem walk_isNull {plan inner : Plan} (steps : plan.steps = .isNull :: inner.steps)
    (start : Point tree) :
    (plan.walk tree start).result =
      if (inner.walk tree start).result = none then some start.value else none := by
  rw [Plan.walk_result, Plan.walk_result, steps, answer, Step.successors,
    List.findSome?_singleton]
  cases answer tree inner.steps ⟨start, []⟩ <;> rfl

namespace Settings

theorem answered_of_off {settings : Settings} (off : settings.staticIndex = false)
    (ops : List PathOp) : settings.answered ops = [] := by
  simp [answered, answeredCount, off]

theorem remaining_of_off {settings : Settings} (off : settings.staticIndex = false)
    (ops : List PathOp) : settings.remaining ops = ops := by
  simp [remaining, answeredCount, off]

end Settings

/-- From every point, a plan compiled for an index answers like the plan for no index, resumed
behind the openings and the operations that the index has answered. Around a null test the one
gives the value back just when the other fails. -/
theorem exists_walk_eq_walkFrom {registry : Registry} {options : Options} {pattern : Pattern}
    {gated : Compiled} (h : compile registry options pattern = .ok gated)
    (plain : pattern.hasNullTest = false) :
    ∃ full nullGated nullFull,
      (compile registry (options.withStaticIndex false) pattern = .ok full ∧
        compile registry options (.isNull pattern) = .ok nullGated ∧
        compile registry (options.withStaticIndex false) (.isNull pattern) = .ok nullFull) ∧
      (full.answered = [] ∧ nullFull.answered = [] ∧ nullGated.answered = gated.answered) ∧
      ∀ (tree : Tree) (start : Point tree),
        (gated.plan.walk tree start).result =
            (full.plan.walkFrom tree (pattern.defaults.length + gated.answered.length)
              start).result ∧
          (nullGated.plan.walk tree start).result =
            if (nullFull.plan.walkFrom tree
                (1 + pattern.defaults.length + nullGated.answered.length) start).result = none
            then some start.value else none := by
  obtain ⟨forms, same, known⟩ := exists_enclose_of_hasNullTest plain h
  let off := options.withStaticIndex false
  have unindexed : off.settings.staticIndex = false := rfl
  have off_answered := Settings.answered_of_off unindexed pattern.ops
  have off_remaining := (Settings.remaining_of_off unindexed pattern.ops).trans
    (options.settings.answered_append_remaining pattern.ops).symm
  obtain ⟨c, compiled_c, steps_c, answered_c⟩ := compile_enclose options pattern.ops known false
  obtain ⟨f, compiled_f, steps_f, answered_f⟩ := compile_enclose off pattern.ops known false
  obtain ⟨nc, compiled_nc, steps_nc, answered_nc⟩ := compile_enclose options pattern.ops known true
  obtain ⟨nf, compiled_nf, steps_nf, answered_nf⟩ := compile_enclose off pattern.ops known true
  rw [Pattern.negateIf_false, ← same] at compiled_c compiled_f
  rw [Pattern.negateIf_true, ← same] at compiled_nc compiled_nf
  rw [h, Except.ok.injEq] at compiled_c
  subst compiled_c
  rw [off_remaining] at steps_f steps_nf
  have count : pattern.defaults.length = (Form.defaults forms).length := by
    rw [same, Pattern.defaults_enclose]
  refine ⟨f, nc, nf, ⟨compiled_f, compiled_nc, compiled_nf⟩, ⟨?_, ?_, ?_⟩, fun tree start => ?_⟩
  · rw [answered_f, off_answered]
  · rw [answered_nf, off_answered]
  · rw [answered_nc, answered_c]
  · have inner : nc.plan.steps = .isNull :: gated.plan.steps := by
      simp [steps_nc, steps_c, Form.steps]
    have walked := walk_remaining steps_c start
    have resumed := walkFrom_answered steps_f start
    have nullResumed := walkFrom_answered steps_nf start
    rw [Bool.toNat_false, Nat.zero_add, ← answered_c, ← count] at resumed
    rw [Bool.toNat_true, ← answered_nc, ← count] at nullResumed
    refine ⟨walked.trans resumed.symm, ?_⟩
    rw [walk_isNull inner, walked, nullResumed]
    rfl

theorem exists_walk_eq_walkFrom_brands :
    let tree := ((Tree.leaf "agent" "x y").addChild (Tree.root _) "word" "x").addChild
      (Tree.root _) "word" "y"
    let registry := Registry.addTable .empty "brands" [("No", "Yes")]
    let words : PathOp := .down .star (some "word")
    let pattern : Pattern := .lookup "brands" (some "Unknown") (.lookup "brands" (some "No")
      (.path [words, .test .equals "y", .move .previous, .full]))
    let off := Options.withStaticIndex {} false
    let start : Point tree := ⟨⟨2, by decide⟩, ""⟩
    let other : Point tree := ⟨tree.root, ""⟩
    pattern.hasNullTest = false ∧ pattern.defaults = ["Unknown", "No"] ∧
      ∃ gated full nullGated nullFull,
        compile registry {} pattern = .ok gated ∧ compile registry off pattern = .ok full ∧
        compile registry {} (.isNull pattern) = .ok nullGated ∧
        compile registry off (.isNull pattern) = .ok nullFull ∧
        gated.answered = [words, .test .equals "y"] ∧
        (gated.plan.walk tree start).result = some "Yes" ∧
        (gated.plan.walk tree start).result = (full.plan.walkFrom tree 4 start).result ∧
        (gated.plan.walk tree other).result = none ∧
        (gated.plan.walk tree other).result = (full.plan.walkFrom tree 4 other).result ∧
        (nullGated.plan.walk tree other).result =
          if (nullFull.plan.walkFrom tree 5 other).result = none then some "" else none := by
  intro tree registry words pattern off start other
  have plain : pattern.hasNullTest = false := rfl
  have compiled : compile registry {} pattern = .ok _ := rfl
  obtain ⟨full, nullGated, nullFull, ⟨compiled_full, compiled_nullGated, compiled_nullFull⟩,
    ⟨-, -, answered⟩, walks⟩ := exists_walk_eq_walkFrom compiled plain
  have null := (walks tree other).2
  rw [answered] at null
  exact ⟨plain, rfl, _, full, nullGated, nullFull, compiled, compiled_full, compiled_nullGated,
    compiled_nullFull, rfl, by decide, (walks tree start).1, by decide, (walks tree other).1, null⟩

end TreePattern
