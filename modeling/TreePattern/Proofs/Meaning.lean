import TreePattern.Proofs.Emission
import TreePattern.Proofs.Reach
import TreePattern.Tree.Build
/-!
What a pattern means, read off its form: each operation and each form leads from a point to a list
of points, and a pattern composes them. The meaning knows no steps, no resumption and no stack of
defaults. A compiled pattern answers with the value of the first point of the meaning.
-/
namespace TreePattern

/-- What a comparison asks of a text. -/
def Comparison.Accepts (literal text : String) : Comparison → Prop
  | .equals => text = literal
  | .notEquals => text ≠ literal
  | .startsWith => literal.toList <+: text.toList
  | .endsWith => literal.toList <:+ text.toList
  | .contains => literal.toList <:+: text.toList

theorem Comparison.holds_iff {comparison : Comparison} {literal text : String} :
    comparison.holds literal text ↔ comparison.Accepts literal text := by
  cases comparison <;> simp [holds, Accepts, occursIn_iff]

instance (literal text : String) (comparison : Comparison) :
    Decidable (comparison.Accepts literal text) :=
  decidable_of_iff _ Comparison.holds_iff

/-- The members at the positions from `first` to `last`, when the first member has the position
`start`. -/
def positioned {α : Type} (first last start : Nat) (xs : List α) : List α :=
  ((xs.zipIdx start).filter fun x => first ≤ x.2 ∧ x.2 ≤ last).map Prod.fst

theorem positioned_cons {α : Type} (first last start : Nat) (x : α) (xs : List α) :
    positioned first last start (x :: xs) =
      if first ≤ start ∧ start ≤ last then x :: positioned first last (start + 1) xs
      else positioned first last (start + 1) xs := by
  rw [positioned, List.zipIdx_cons, List.filter_cons]
  split <;> simp_all [positioned]

theorem positioned_eq {α : Type} (first last start : Nat) (xs : List α) :
    positioned first last start xs = (xs.take (last + 1 - start)).drop (first - start) := by
  induction xs generalizing start with
  | nil => simp [positioned]
  | cons x xs ih =>
    rw [positioned_cons, ih]
    by_cases high : start ≤ last
    · have more : last + 1 - start = last + 1 - (start + 1) + 1 := by omega
      rw [more, List.take_succ_cons]
      by_cases low : first ≤ start
      · have here : first - start = 0 ∧ first - (start + 1) = 0 := by omega
        simp [low, high, here]
      · have later : first - start = first - (start + 1) + 1 := by omega
        simp [low, later]
    · have past : last + 1 - start = 0 ∧ last + 1 - (start + 1) = 0 := by omega
      simp [high, past]

/-- Where an operation leads from a point, in order. -/
def PathOp.meaning (tree : Tree) : PathOp → Point tree → List (Point tree)
  | .down range name, p =>
    (positioned range.first.toNat range.last.toNat 1
      ((tree.children p.node).filter fun c => name.all (tree.name c = ·))).map (⟨·, p.value⟩)
  | .move .up, p => (tree.parent p.node).toList.map (⟨·, p.value⟩)
  | .move .next, p => (tree.nextSibling p.node).toList.map (⟨·, p.value⟩)
  | .move .previous, p => (tree.previousSibling p.node).toList.map (⟨·, p.value⟩)
  | .test comparison literal, p =>
    if comparison.Accepts literal (tree.text p.node) then [p] else []
  | .words range, p => (range.extract? (tree.text p.node)).toList.map (⟨p.node, ·⟩)
  | .full, p => [⟨p.node, tree.text p.node⟩]
  | .fixed value, p => [⟨p.node, value⟩]

/-- The operations of a path one after another, the first one outermost. -/
def pathMeaning (tree : Tree) : List PathOp → Point tree → List (Point tree)
  | [], p => [p]
  | op :: rest, p => (op.meaning tree p).flatMap (pathMeaning tree rest)

/-- What a pattern finds from a point. A look-up takes the default for a value without an entry, and
gives up such a value if it has no default; a null test keeps the point if nothing is found. -/
def Pattern.meaning (registry : Registry) (policy : VersionPolicy) (tree : Tree) :
    Pattern → Point tree → List (Point tree)
  | .path ops, p => pathMeaning tree ops p
  | .lookup name default inner, p =>
    (inner.meaning registry policy tree p).flatMap fun q =>
      ((registry.get? name).bind fun table =>
        (table.resolve q.value).or default).toList.map (⟨q.node, ·⟩)
  | .cleanVersion inner, p =>
    (inner.meaning registry policy tree p).flatMap fun q =>
      (policy q.value).toList.map (⟨q.node, ·⟩)
  | .isNull inner, p => if inner.meaning registry policy tree p = [] then [p] else []

theorem PathOp.outcomes_eq_meaning (tree : Tree) (op : PathOp) (p : Point tree) :
    op.outcomes tree p = op.meaning tree p := by
  cases op with
  | down range name =>
    have named : tree.childrenNamed p.node name =
        (tree.children p.node).filter fun c => name.all (tree.name c = ·) := by
      cases name with
      | none => exact (List.filter_eq_self.2 fun _ _ => rfl).symm
      | some name => simp [Tree.childrenNamed]
    rw [outcomes, meaning, ← named, positioned_eq, ChildRange.select, Nat.add_sub_cancel]
  | move direction => cases direction <;> rfl
  | test comparison literal => simp [outcomes, meaning, Comparison.holds_iff]
  | _ => rfl

variable {tree : Tree}

theorem reached_path (ops : List PathOp) (p : Point tree) (defaults : List String) :
    reached tree (ops.map .path) ⟨p, defaults⟩ = (pathMeaning tree ops p).map (⟨·, defaults⟩) := by
  induction ops generalizing p with
  | nil => rfl
  | cons op rest ih =>
    rw [List.map_cons, reached_cons, Step.successors, PathOp.outcomes_eq_meaning, List.flatMap_map,
      pathMeaning, List.map_flatMap, ← funext ih]

/-- The value that a form makes of the value inside it. -/
def Form.value? (registry : Registry) (policy : VersionPolicy) : Form → String → Option String
  | .lookup name default, value =>
    (registry.get? name).bind fun table => (table.resolve value).or default
  | .cleanVersion, value => policy value

theorem meaning_around (registry : Registry) (policy : VersionPolicy) (form : Form)
    (inner : Pattern) (p : Point tree) :
    (form.around inner).meaning registry policy tree p =
      (inner.meaning registry policy tree p).flatMap fun q =>
        (form.value? registry policy q.value).toList.map (⟨q.node, ·⟩) := by
  cases form <;> rfl

/-- A form uses up the default that it has made ready, and no other. -/
theorem successors_closing {registry : Registry} {tables : String → Table} (policy : VersionPolicy)
    {form : Form} (known : form.Known registry tables) (q : Point tree) (defaults : List String) :
    (form.closing tables policy).successors ⟨q, form.default?.toList ++ defaults⟩ =
      (form.value? registry policy q.value).toList.map fun v => ⟨⟨q.node, v⟩, defaults⟩ := by
  cases form with
  | lookup name default =>
    have found : registry.get? name = some (tables name) := known
    cases default with
    | none => simp [Form.closing, Form.default?, Form.value?, Step.successors, Step.lookUp, found]
    | some value =>
      simp [Form.closing, Form.default?, Form.value?, Step.successors, Step.lookUp, found]
  | cleanVersion => rfl

/-- The steps of a path inside forms reach what it means, with the defaults they started with. -/
theorem reached_steps {registry : Registry} {tables : String → Table} (policy : VersionPolicy)
    {forms : List Form} (known : ∀ form ∈ forms, form.Known registry tables) (ops : List PathOp)
    (p : Point tree) (defaults : List String) :
    reached tree (Form.steps tables policy false forms ops) ⟨p, defaults⟩ =
      ((Pattern.enclose forms ops).meaning registry policy tree p).map (⟨·, defaults⟩) := by
  -- Inside a form its default lies on the others, so the induction is for every stack.
  induction forms generalizing defaults with
  | nil => simpa [Form.steps, Pattern.meaning] using reached_path ops p defaults
  | cons form forms ih =>
    have inner := ih fun form h => known form (List.mem_cons_of_mem _ h)
    have split : Form.steps tables policy false (form :: forms) ops =
        form.opening?.toList ++ (Form.steps tables policy false forms ops ++
          [form.closing tables policy]) := by simp [Form.steps]
    have ready : reached tree form.opening?.toList ⟨p, defaults⟩ =
        [⟨p, form.default?.toList ++ defaults⟩] := by
      rw [Form.opening?]
      cases form.default? <;> rfl
    have closed := fun q : Point tree =>
      successors_closing policy (known form (List.mem_cons_self ..)) q defaults
    rw [split, reached_append, ready, List.flatMap_singleton, reached_append, inner,
      Pattern.enclose_cons, meaning_around, List.flatMap_map, List.map_flatMap]
    refine congrArg (List.flatMap · _) (funext fun q => ?_)
    rw [reached_singleton, closed, List.map_map]
    rfl

theorem ne_isNull_of_mem_steps {tables : String → Table} {policy : VersionPolicy}
    {forms : List Form} {ops : List PathOp} {step : Step}
    (h : step ∈ Form.steps tables policy false forms ops) : step ≠ .isNull := by
  rintro rfl
  simp [Form.steps, Form.openings, Form.closings, Form.opening?] at h
  obtain ⟨form, -, eq⟩ := h
  cases form <;> cases eq

theorem answer_steps {registry : Registry} {tables : String → Table} (policy : VersionPolicy)
    {forms : List Form} (known : ∀ form ∈ forms, form.Known registry tables) (negated : Bool)
    (ops : List PathOp) (p : Point tree) (defaults : List String) :
    answer tree (Form.steps tables policy negated forms ops) ⟨p, defaults⟩ =
      (((Pattern.enclose forms ops).negateIf negated).meaning registry policy tree p).head?.map
        Point.value := by
  have inner : answer tree (Form.steps tables policy false forms ops) ⟨p, defaults⟩ =
      ((Pattern.enclose forms ops).meaning registry policy tree p).head?.map Point.value := by
    have plain : ∀ step ∈ Form.steps tables policy false forms ops, step ≠ .isNull :=
      fun _ => ne_isNull_of_mem_steps
    rw [← List.append_nil (Form.steps ..), answer_append plain, reached_steps policy known]
    cases (Pattern.enclose forms ops).meaning registry policy tree p <;> rfl
  cases negated with
  | false => exact inner
  | true =>
    have outer : Form.steps tables policy true forms ops =
        .isNull :: Form.steps tables policy false forms ops := by simp [Form.steps]
    rw [outer, answer, Step.successors, List.findSome?_singleton, inner,
      Pattern.negateIf_true, Pattern.meaning]
    cases (Pattern.enclose forms ops).meaning registry policy tree p <;> rfl

/-- A path inside forms answers with the first value that it means from the entry point on. -/
theorem walk_enclose {registry : Registry} {tables : String → Table} (options : Options)
    {forms : List Form} (ops : List PathOp) (known : ∀ form ∈ forms, form.Known registry tables)
    (negated : Bool) : ∃ c,
    compile registry options ((Pattern.enclose forms ops).negateIf negated) = .ok c ∧
      c.answered = options.settings.answered ops ∧
      ∀ (tree : Tree) (start : Point tree), (c.plan.walk tree start).result =
        (((Pattern.enclose forms (options.settings.remaining ops)).negateIf negated).meaning
          registry options.policy tree start).head?.map Point.value := by
  obtain ⟨c, compiled, steps, answered⟩ := compile_enclose options ops known negated
  refine ⟨c, compiled, answered, fun tree start => ?_⟩
  rw [Plan.walk_result, steps, answer_steps options.policy known]

/-- The pattern with another path inside all forms. -/
def Pattern.withOps (ops : List PathOp) : Pattern → Pattern
  | .path _ => .path ops
  | .lookup name default inner => .lookup name default (inner.withOps ops)
  | .cleanVersion inner => .cleanVersion (inner.withOps ops)
  | .isNull inner => .isNull (inner.withOps ops)

@[simp] theorem Pattern.withOps_enclose (forms : List Form) (ops other : List PathOp) :
    (enclose forms ops).withOps other = enclose forms other := by
  induction forms with
  | nil => rfl
  | cons form forms ih => cases form <;> simp [Form.around, withOps, ih]

@[simp] theorem Pattern.withOps_negateIf (negated : Bool) (pattern : Pattern) (ops : List PathOp) :
    (pattern.negateIf negated).withOps ops = (pattern.withOps ops).negateIf negated := by
  cases negated <;> rfl

/-- A compiled pattern answers with the value of the first point that the pattern means, once the
operations are left out that the index has answered. -/
theorem walk_eq_meaning {registry : Registry} {options : Options} {pattern : Pattern} {c : Compiled}
    (h : compile registry options pattern = .ok c) :
    c.answered ++ options.settings.remaining pattern.ops = pattern.ops ∧
      (options.settings.staticIndex = false →
        options.settings.remaining pattern.ops = pattern.ops) ∧
      ∀ (tree : Tree) (start : Point tree), (c.plan.walk tree start).result =
        ((pattern.withOps (options.settings.remaining pattern.ops)).meaning registry options.policy
          tree start).head?.map Point.value := by
  obtain ⟨negated, forms, same, known⟩ := exists_enclose_of_compile h
  obtain ⟨c', compiled, answered, walks⟩ := walk_enclose options pattern.ops known negated
  rw [← same, h, Except.ok.injEq] at compiled
  subst compiled
  refine ⟨?_, ?_, ?_⟩
  · rw [answered, Settings.answered_append_remaining]
  · intro off
    simp [Settings.remaining, Settings.answeredCount, off]
  · intro tree start
    have cut : pattern.withOps (options.settings.remaining pattern.ops) =
        (Pattern.enclose forms (options.settings.remaining pattern.ops)).negateIf negated := by
      rw [same]
      simp
    rw [walks, cut]

theorem walk_eq_meaning_brands :
    let tree := ((Tree.leaf "agent" "x 7_1").addChild (Tree.root _) "word" "x").addChild
      (Tree.root _) "word" "7_1"
    let registry := Registry.addTable .empty "brands" [("7_1", "8_2")]
    let pattern : Pattern :=
      .cleanVersion (.lookup "brands" none (.path [.down .star (some "word"), .move .next, .full]))
    let start : Point tree := ⟨⟨1, by decide⟩, ""⟩
    ∃ c, compile registry {} pattern = .ok c ∧ c.answered = [.down .star (some "word")] ∧
      (c.plan.walk tree start).result = some "8.2" ∧
      (c.plan.walk tree start).result =
        ((pattern.withOps [.move .next, .full]).meaning registry VersionPolicy.canonical tree
          start).head?.map Point.value := by
  intro tree registry pattern start
  have compiled : compile registry {} pattern = .ok _ := rfl
  exact ⟨_, compiled, rfl, by decide, (walk_eq_meaning compiled).2.2 tree start⟩

end TreePattern
