import TreePattern.Proofs.Meaning
/-!
Moving the entry point. A stronger index answers more operations of the same path, and a plan
compiled for it enters the path later. What the plan for a weaker index finds is what the later one
finds from the points to which the operations in between lead, tried in order.
-/
namespace TreePattern

/-- Settings under which an index answers no more: there is none, or it keeps fewer words. -/
def Settings.Weaker (s t : Settings) : Prop :=
  s.staticIndex = false ∨
    s.staticIndex = true ∧ t.staticIndex = true ∧ s.indexedWordLimit ≤ t.indexedWordLimit

def Pattern.hasNullTest : Pattern → Bool
  | .path _ => false
  | .lookup _ _ inner | .cleanVersion inner => inner.hasNullTest
  | .isNull _ => true

theorem PathOp.isIndexed_of_le {few many : UInt64} (le : few ≤ many) {op : PathOp}
    (h : op.isIndexed few) : op.isIndexed many := by
  cases op with
  | words range =>
    have fewer : few.toNat ≤ many.toNat := UInt64.le_iff_toNat_le.1 le
    simp only [isIndexed, Bool.and_eq_true, decide_eq_true_eq] at h ⊢
    exact ⟨h.1, by omega⟩
  | _ => exact h

theorem indexedCount_le {few many : UInt64} (le : few ≤ many) (ops : List PathOp) :
    indexedCount few ops ≤ indexedCount many ops := by
  induction ops with
  | nil => exact Nat.le_refl _
  | cons op rest ih =>
    rw [indexedCount_cons]
    cases gate : op.gate few with
    | before => exact Nat.zero_le _
    | after =>
      have equality := (PathOp.gate_eq_after_iff many).2 ((PathOp.gate_eq_after_iff few).1 gate)
      simp [indexedCount_cons, equality]
    | passive =>
      have follows := PathOp.isIndexed_of_le le (PathOp.isIndexed_iff_gate.2 gate)
      rw [indexedCount_cons, PathOp.isIndexed_iff_gate.1 follows]
      exact Nat.succ_le_succ ih

theorem Settings.Weaker.answeredCount_le {s t : Settings} (weaker : s.Weaker t)
    (ops : List PathOp) : s.answeredCount ops ≤ t.answeredCount ops := by
  rcases weaker with off | ⟨on, on', le⟩
  · simp [answeredCount, off]
  · simpa [answeredCount, on, on'] using indexedCount_le le ops

/-- The operations between two entry points stand together, behind what both indexes answer and in
front of what neither answers. -/
theorem Settings.Weaker.exists_between {s t : Settings} (weaker : s.Weaker t) (ops : List PathOp) :
    ∃ between, t.answered ops = s.answered ops ++ between ∧
      s.remaining ops = between ++ t.remaining ops := by
  obtain ⟨more, count⟩ := Nat.exists_eq_add_of_le (weaker.answeredCount_le ops)
  refine ⟨(ops.drop (s.answeredCount ops)).take more, ?_, ?_⟩
  · rw [answered, count, List.take_add]
    rfl
  · rw [remaining, remaining, count, ← List.drop_drop, List.take_append_drop]

variable {tree : Tree}

theorem pathMeaning_append (first rest : List PathOp) (p : Point tree) :
    pathMeaning tree (first ++ rest) p =
      (pathMeaning tree first p).flatMap (pathMeaning tree rest) := by
  induction first generalizing p with
  | nil => simp [pathMeaning]
  | cons op first ih =>
    rw [List.cons_append, pathMeaning, pathMeaning, List.flatMap_assoc, funext ih]

/-- Forms act on each value by itself, so the start of the path can be taken before them. -/
theorem meaning_enclose_append (registry : Registry) (policy : VersionPolicy) (forms : List Form)
    (first rest : List PathOp) (p : Point tree) :
    (Pattern.enclose forms (first ++ rest)).meaning registry policy tree p =
      (pathMeaning tree first p).flatMap
        ((Pattern.enclose forms rest).meaning registry policy tree) := by
  induction forms with
  | nil => exact pathMeaning_append first rest p
  | cons form forms ih =>
    rw [Pattern.enclose_cons, Pattern.enclose_cons, meaning_around, ih, List.flatMap_assoc,
      ← funext (meaning_around registry policy form (Pattern.enclose forms rest))]

theorem exists_enclose_of_hasNullTest {registry : Registry} {options : Options} {pattern : Pattern}
    {c : Compiled} (plain : pattern.hasNullTest = false)
    (h : compile registry options pattern = .ok c) :
    ∃ forms, pattern = Pattern.enclose forms pattern.ops ∧
      ∀ form ∈ forms, form.Known registry fun name => (registry.get? name).getD .empty := by
  obtain ⟨negated, forms, same, known⟩ := exists_enclose_of_compile h
  cases negated with
  | false => exact ⟨forms, same, known⟩
  | true =>
    rw [same] at plain
    cases plain

theorem isSome_meaning_isNull (registry : Registry) (policy : VersionPolicy) (inner : Pattern)
    (p : Point tree) :
    ((inner.isNull.meaning registry policy tree p).head?.map Point.value).isSome ↔
      inner.meaning registry policy tree p = [] := by
  rw [Pattern.meaning]
  split <;> simp_all

/-- A walk for a weaker index succeeds first where a walk for a stronger one does, tried from each
point behind the operations in between. A null test succeeds if it does from all these points. -/
theorem exists_walk_eq_findSome?_of_weaker {registry : Registry} {options s t : Options}
    {pattern : Pattern} {c : Compiled} (h : compile registry options pattern = .ok c)
    (plain : pattern.hasNullTest = false) (policy : s.policy = t.policy)
    (weaker : s.settings.Weaker t.settings) :
    ∃ cs ct ns nt between,
      (compile registry s pattern = .ok cs ∧ compile registry t pattern = .ok ct ∧
        compile registry s (.isNull pattern) = .ok ns ∧
        compile registry t (.isNull pattern) = .ok nt) ∧
      (ct.answered = cs.answered ++ between ∧ nt.answered = ns.answered ++ between) ∧
      ∀ (tree : Tree) (start : Point tree),
        (cs.plan.walk tree start).result =
            (pathMeaning tree between start).findSome? (fun p => (ct.plan.walk tree p).result) ∧
          ((ns.plan.walk tree start).result.isSome ↔
            ∀ p ∈ pathMeaning tree between start, (nt.plan.walk tree p).result.isSome) := by
  obtain ⟨forms, same, known⟩ := exists_enclose_of_hasNullTest plain h
  obtain ⟨between, answered, remaining⟩ := weaker.exists_between pattern.ops
  obtain ⟨cs, compiled_cs, answered_cs, walks_cs⟩ := walk_enclose s pattern.ops known false
  obtain ⟨ct, compiled_ct, answered_ct, walks_ct⟩ := walk_enclose t pattern.ops known false
  obtain ⟨ns, compiled_ns, answered_ns, walks_ns⟩ := walk_enclose s pattern.ops known true
  obtain ⟨nt, compiled_nt, answered_nt, walks_nt⟩ := walk_enclose t pattern.ops known true
  rw [Pattern.negateIf_false, ← same] at compiled_cs compiled_ct
  rw [Pattern.negateIf_true, ← same] at compiled_ns compiled_nt
  refine ⟨cs, ct, ns, nt, between, ⟨compiled_cs, compiled_ct, compiled_ns, compiled_nt⟩, ⟨?_, ?_⟩, ?_⟩
  · rw [answered_cs, answered_ct, answered]
  · rw [answered_ns, answered_nt, answered]
  · intro tree start
    have split := meaning_enclose_append registry t.policy forms between
      (t.settings.remaining pattern.ops) start
    constructor
    · rw [walks_cs, remaining, policy, Pattern.negateIf_false, split, List.head?_flatMap,
        List.map_findSome?]
      simp only [walks_ct, Pattern.negateIf_false]
      rfl
    · simp only [walks_ns, walks_nt, remaining, policy, Pattern.negateIf_true,
        isSome_meaning_isNull]
      rw [split, List.flatMap_eq_nil_iff]

theorem exists_walk_eq_findSome?_of_weaker_brands :
    let tree := ((Tree.leaf "agent" "x y").addChild (Tree.root _) "word" "x").addChild
      (Tree.root _) "word" "y"
    let registry := Registry.addTable .empty "brands" [("y", "Yes")]
    let words : PathOp := .down .star (some "word")
    let pattern : Pattern :=
      .lookup "brands" (some "No") (.path [words, .full, .test .startsWith "y"])
    let s : Options := { settings := { staticIndex := false } }
    let start : Point tree := ⟨tree.root, ""⟩
    pattern.hasNullTest = false ∧ s.settings.Weaker {} ∧
      ∃ cs ct, compile registry s pattern = .ok cs ∧ compile registry {} pattern = .ok ct ∧
        ct.answered = cs.answered ++ [words, .full] ∧
        (pathMeaning tree [words, .full] start).map (fun p => (ct.plan.walk tree p).result) =
          [none, some "Yes"] ∧
        (cs.plan.walk tree start).result = (pathMeaning tree [words, .full] start).findSome?
          fun p => (ct.plan.walk tree p).result := by
  intro tree registry words pattern s start
  have plain : pattern.hasNullTest = false := rfl
  have weaker : s.settings.Weaker {} := .inl rfl
  have compiled_s : compile registry s pattern = .ok _ := rfl
  have compiled_t : compile registry {} pattern = .ok _ := rfl
  obtain ⟨cs, ct, ns, nt, between, ⟨same_s, same_t, -⟩, ⟨answered, -⟩, walks⟩ :=
    exists_walk_eq_findSome?_of_weaker (s := s) (t := {}) compiled_s plain rfl weaker
  rw [compiled_s, Except.ok.injEq] at same_s
  rw [compiled_t, Except.ok.injEq] at same_t
  subst same_s same_t
  have between_eq : between = [words, .full] := answered.symm
  subst between_eq
  exact ⟨plain, weaker, _, _, compiled_s, compiled_t, rfl, by decide, (walks tree start).1⟩

end TreePattern
