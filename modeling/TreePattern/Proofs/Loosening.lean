import Mathlib.Data.List.Forall2
import TreePattern.Proofs.Entry
/-!
Loosening a pattern: wider ranges of children, and defaults for look-ups that have none. A looser
pattern compiles as well and means all the points that the pattern means, in another order and with
more points between them, so its walks succeed wherever walks of the pattern do. A null test around
the looser pattern succeeds less often.
-/
namespace TreePattern

/-- The same operation, or one that looks at more children of the same name. -/
inductive PathOp.Widens : PathOp → PathOp → Prop where
  | same (op : PathOp) : Widens op op
  | down {range wider : ChildRange} (name : Option String) :
      wider.first ≤ range.first → range.last ≤ wider.last →
      Widens (.down range name) (.down wider name)

/-- The same pattern, but for wider ranges of children and more look-ups with a default. -/
inductive Pattern.Loosens : Pattern → Pattern → Prop where
  | path {ops wider : List PathOp} : List.Forall₂ PathOp.Widens ops wider →
      Loosens (.path ops) (.path wider)
  | lookup {inner looser : Pattern} {default more : Option String} (name : String) :
      default = none ∨ more = default → Loosens inner looser →
      Loosens (.lookup name default inner) (.lookup name more looser)
  | cleanVersion {inner looser : Pattern} : Loosens inner looser →
      Loosens (.cleanVersion inner) (.cleanVersion looser)
  | isNull {inner looser : Pattern} : Loosens inner looser →
      Loosens (.isNull inner) (.isNull looser)

/-- The same form, or a look-up with a default in place of one without. -/
def Form.Loosens : Form → Form → Prop
  | .lookup name default, .lookup other more => name = other ∧ (default = none ∨ more = default)
  | .cleanVersion, .cleanVersion => True
  | _, _ => False

namespace Form

variable {form looser : Form}

theorem Loosens.known {registry : Registry} {tables : String → Table}
    (loosens : form.Loosens looser) (known : form.Known registry tables) :
    looser.Known registry tables := by
  cases form with
  | lookup name default =>
    cases looser with
    | lookup other more =>
      obtain ⟨rfl, -⟩ := loosens
      exact known
    | cleanVersion => cases loosens
  | cleanVersion =>
    cases looser with
    | lookup other more => cases loosens
    | cleanVersion => trivial

/-- What a form makes of a value, a looser form makes of it too. -/
theorem Loosens.value? {registry : Registry} {policy : VersionPolicy}
    (loosens : form.Loosens looser) {value found : String}
    (kept : form.value? registry policy value = some found) :
    looser.value? registry policy value = some found := by
  cases form with
  | lookup name default =>
    cases looser with
    | lookup other more =>
      obtain ⟨rfl, rfl | rfl⟩ := loosens
      · obtain ⟨table, get, resolved⟩ := Option.bind_eq_some_iff.1 kept
        rw [Option.or_none] at resolved
        simp [Form.value?, get, resolved]
      · exact kept
    | cleanVersion => cases loosens
  | cleanVersion =>
    cases looser with
    | lookup other more => cases loosens
    | cleanVersion => exact kept

theorem known_of_loosens {registry : Registry} {tables : String → Table} {forms loosers : List Form}
    (loosens : List.Forall₂ Loosens forms loosers)
    (known : ∀ form ∈ forms, form.Known registry tables) :
    ∀ looser ∈ loosers, looser.Known registry tables := by
  induction loosens with
  | nil => exact known
  | cons head _ ih =>
    obtain ⟨here, behind⟩ := List.forall_mem_cons.1 known
    exact List.forall_mem_cons.2 ⟨head.known here, ih behind⟩

end Form

/-- A looser pattern has looser forms around a wider path. -/
theorem Pattern.Loosens.exists_enclose {forms : List Form} {ops : List PathOp} {looser : Pattern}
    (loosens : (enclose forms ops).Loosens looser) :
    ∃ forms' ops', looser = enclose forms' ops' ∧ List.Forall₂ Form.Loosens forms forms' ∧
      List.Forall₂ PathOp.Widens ops ops' := by
  induction forms generalizing looser with
  | nil =>
    cases loosens with
    | @path ops wider widens => exact ⟨[], wider, rfl, .nil, widens⟩
  | cons form forms ih =>
    cases form with
    | lookup name default =>
      cases loosens with
      | @lookup inner looser default more name kept loosens =>
        obtain ⟨forms', ops', rfl, around, widens⟩ := ih loosens
        exact ⟨.lookup name more :: forms', ops', rfl, .cons ⟨rfl, kept⟩ around, widens⟩
    | cleanVersion =>
      cases loosens with
      | cleanVersion loosens =>
        obtain ⟨forms', ops', rfl, around, widens⟩ := ih loosens
        exact ⟨.cleanVersion :: forms', ops', rfl, .cons trivial around, widens⟩

section Gates

variable {op wider : PathOp} {ops wides : List PathOp}

/-- An index does not care how many children an operation looks at. -/
theorem PathOp.Widens.gate_eq (widens : op.Widens wider) (limit : UInt64) :
    op.gate limit = wider.gate limit := by
  cases widens <;> rfl

theorem indexedCount_eq_of_widens (widens : List.Forall₂ PathOp.Widens ops wides) (limit : UInt64) :
    indexedCount limit ops = indexedCount limit wides := by
  induction widens with
  | nil => rfl
  | cons head _ ih => rw [indexedCount_cons, indexedCount_cons, head.gate_eq, ih]

theorem Settings.remaining_widens (settings : Settings)
    (widens : List.Forall₂ PathOp.Widens ops wides) :
    List.Forall₂ PathOp.Widens (settings.remaining ops) (settings.remaining wides) := by
  have count : settings.answeredCount ops = settings.answeredCount wides := by
    rw [answeredCount, answeredCount, indexedCount_eq_of_widens widens]
  rw [remaining, remaining, count]
  exact List.forall₂_drop _ widens

end Gates

variable {tree : Tree}

theorem mem_positioned_iff {α : Type} {first last start : Nat} {xs : List α} {x : α} :
    x ∈ positioned first last start xs ↔
      ∃ position, (x, position) ∈ xs.zipIdx start ∧ first ≤ position ∧ position ≤ last := by
  simp [positioned]

/-- A wider operation leads to all the points to which the operation leads. -/
theorem PathOp.Widens.meaning_subset {op wider : PathOp} (widens : op.Widens wider)
    (p : Point tree) : op.meaning tree p ⊆ wider.meaning tree p := by
  cases widens with
  | same => exact List.Subset.refl _
  | @down range wider name first last =>
    apply List.map_subset
    intro child mem
    obtain ⟨position, at_position, low, high⟩ := mem_positioned_iff.1 mem
    have lower : wider.first.toNat ≤ range.first.toNat := UInt64.le_iff_toNat_le.1 first
    have higher : range.last.toNat ≤ wider.last.toNat := UInt64.le_iff_toNat_le.1 last
    exact mem_positioned_iff.2 ⟨position, at_position, by omega, by omega⟩

theorem flatMap_subset_flatMap {α β : Type} {xs ys : List α} {f g : α → List β} (more : xs ⊆ ys)
    (each : ∀ x, f x ⊆ g x) : xs.flatMap f ⊆ ys.flatMap g := by
  intro y mem
  obtain ⟨x, mem, found⟩ := List.mem_flatMap.1 mem
  exact List.mem_flatMap.2 ⟨x, more mem, each x found⟩

theorem pathMeaning_subset {ops wides : List PathOp} (widens : List.Forall₂ PathOp.Widens ops wides)
    (p : Point tree) : pathMeaning tree ops p ⊆ pathMeaning tree wides p := by
  induction widens generalizing p with
  | nil => exact List.Subset.refl _
  | cons head _ ih => exact flatMap_subset_flatMap (head.meaning_subset p) ih

/-- A looser pattern means all that the pattern means. -/
theorem meaning_enclose_subset (registry : Registry) (policy : VersionPolicy)
    {forms loosers : List Form} {ops wides : List PathOp}
    (loosens : List.Forall₂ Form.Loosens forms loosers)
    (widens : List.Forall₂ PathOp.Widens ops wides) (p : Point tree) :
    (Pattern.enclose forms ops).meaning registry policy tree p ⊆
      (Pattern.enclose loosers wides).meaning registry policy tree p := by
  induction loosens with
  | nil => exact pathMeaning_subset widens p
  | @cons form looser forms loosers head _ ih =>
    rw [Pattern.enclose_cons, Pattern.enclose_cons, meaning_around, meaning_around]
    refine flatMap_subset_flatMap ih fun q => ?_
    cases kept : form.value? registry policy q.value with
    | none => exact List.nil_subset _
    | some value => rw [head.value? kept]; exact List.Subset.refl _

theorem isSome_head?_map_iff {α β : Type} (f : α → β) (xs : List α) :
    (xs.head?.map f).isSome ↔ xs ≠ [] := by
  cases xs <;> simp

/-- A pattern that is looser compiles too, and its walks succeed where those of the pattern do.
Null tests around the two compile as well, and the one around the looser pattern succeeds nowhere
else than the other. -/
theorem walk_isSome_of_loosens {registry : Registry} {options : Options} {pattern looser : Pattern}
    {c : Compiled} (plain : pattern.hasNullTest = false)
    (h : compile registry options pattern = .ok c) (loosens : pattern.Loosens looser) :
    ∃ c' n n', compile registry options looser = .ok c' ∧
      compile registry options (.isNull pattern) = .ok n ∧
      compile registry options (.isNull looser) = .ok n' ∧
      ∀ (tree : Tree) (start : Point tree),
        ((c.plan.walk tree start).result.isSome → (c'.plan.walk tree start).result.isSome) ∧
        ((n'.plan.walk tree start).result.isSome → (n.plan.walk tree start).result.isSome) := by
  obtain ⟨forms, same, known⟩ := exists_enclose_of_hasNullTest plain h
  obtain ⟨forms', ops', rfl, around, widens⟩ := Pattern.Loosens.exists_enclose (same ▸ loosens)
  have known' := Form.known_of_loosens around known
  obtain ⟨c₁, compiled, -, walks⟩ := walk_enclose options pattern.ops known false
  obtain ⟨c', compiled', -, walks'⟩ := walk_enclose options ops' known' false
  obtain ⟨n, tested, -, tests⟩ := walk_enclose options pattern.ops known true
  obtain ⟨n', tested', -, tests'⟩ := walk_enclose options ops' known' true
  rw [Pattern.negateIf_false, ← same, h, Except.ok.injEq] at compiled
  subst compiled
  rw [Pattern.negateIf_true, ← same] at tested
  refine ⟨c', n, n', compiled', tested, tested', fun tree start => ?_⟩
  have subset := meaning_enclose_subset registry options.policy around
    (options.settings.remaining_widens widens) start
  have missed (nothing : (Pattern.enclose forms' (options.settings.remaining ops')).meaning registry
      options.policy tree start = []) : (Pattern.enclose forms
        (options.settings.remaining pattern.ops)).meaning registry options.policy tree start = [] :=
    List.subset_nil.1 (nothing ▸ subset)
  rw [walks, walks', tests, tests', Pattern.negateIf_true, Pattern.negateIf_true,
    isSome_meaning_isNull, isSome_meaning_isNull, isSome_head?_map_iff, isSome_head?_map_iff,
    Pattern.negateIf_false, Pattern.negateIf_false]
  exact ⟨mt missed, missed⟩

/-- A wider range starts with a word that only the default serves. -/
theorem walk_isSome_of_loosens_brands :
    let tree := ((Tree.leaf "agent" "x a").addChild (Tree.root _) "word" "x").addChild
      (Tree.root _) "word" "a"
    let registry := Registry.addTable .empty "brands" [("a", "Apple")]
    let options : Options := Options.withStaticIndex {} false
    let second : ChildRange := ⟨2, 2, by decide, by decide⟩
    let pattern : Pattern := .lookup "brands" none (.path [.down second none, .full])
    let looser : Pattern := .lookup "brands" (some "Unknown") (.path [.down .star none, .full])
    pattern.hasNullTest = false ∧ pattern.Loosens looser ∧
      ∃ c c', compile registry options pattern = .ok c ∧
        compile registry options looser = .ok c' ∧
        (c.plan.walk tree ⟨tree.root, ""⟩).result = some "Apple" ∧
        (c'.plan.walk tree ⟨tree.root, ""⟩).result.isSome := by
  intro tree registry options second pattern looser
  have loosens : pattern.Loosens looser :=
    .lookup "brands" (.inl rfl) (.path (.cons (.down none (by decide) (by decide))
      (.cons (.same .full) .nil)))
  have compiled : compile registry options pattern = .ok _ := rfl
  obtain ⟨c', n, n', compiled', -, -, walks⟩ := walk_isSome_of_loosens rfl compiled loosens
  refine ⟨rfl, loosens, _, c', compiled, compiled', ?_, (walks tree _).1 ?_⟩
  · decide
  · decide

end TreePattern
