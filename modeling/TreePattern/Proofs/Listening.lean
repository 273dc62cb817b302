import TreePattern.Plan.Compile
import TreePattern.Proofs.Reach
/-!
Listeners of any kind. A walk tells a listener each line at the moment when it is known, and the
listener may do with it what its monad allows: keep it, print it, or count it. What a walk answers
does not depend on this. It is the answer of a walk that nobody listens to, and all that a listener
gets is the report of the walk, line by line. Compiling depends on no listener either.
-/
namespace TreePattern

variable {m : Type → Type} [Monad m]

/-- Tries one member after another until one succeeds, with the effects of all tries. -/
def firstSuccessM {α : Type} (attempt : α → m (Option String)) : List α → m (Option String)
  | [] => pure none
  | x :: xs => do
    match ← attempt x with
    | some value => pure (some value)
    | none => firstSuccessM attempt xs

/-- Tells the listener, if there is one, some lines before and one line after an attempt. -/
def announce (listener : Option (String → m Unit)) (before : List String)
    (after : Option String → String) (attempt : m (Option String)) : m (Option String) :=
  match listener with
  | none => attempt
  | some tell => do
    before.forM tell
    let result ← attempt
    tell (after result)
    pure result

/-- Runs steps, the first of which has the given position, and announces each of them. -/
def runTelling (listener : Option (String → m Unit)) (tree : Tree) :
    Nat → List Step → State tree → m (Option String)
  | _, [], s => pure (some s.point.value)
  | index, step :: rest, s =>
    announce listener [enterLine index step (tree.text s.point.node) s.point.value]
      (leaveLine index step) do
        let inner ← firstSuccessM (runTelling listener tree (index + 1) rest) (step.successors s)
        pure (step.conclude s.point.value inner)

/-- Walks all steps before a listener. Without steps there is nothing to tell. -/
def walkTelling (listener : Option (String → m Unit)) (steps : List Step) (tree : Tree)
    (start : Point tree) : m (Option String) :=
  match steps with
  | [] => pure (some start.value)
  | first :: rest =>
    announce listener ["Tree: " ++ shown (tree.text start.node), "Enter step: " ++ first.text]
      (fun result => "Leave step (" ++ sign result ++ "): " ++ first.text)
      (runTelling listener tree 0 (first :: rest) ⟨start, []⟩)

/-- Walks before a listener from the given position on, with the defaults that the steps before it
leave. -/
def walkFromTelling (listener : Option (String → m Unit)) (steps : List Step) (tree : Tree)
    (index : Nat) (start : Point tree) : m (Option String) :=
  runTelling listener tree index (steps.drop index)
    ⟨start, stack (pendingDefaults (steps.take index)) []⟩

/-- Tells a finished report line by line, and gives its result. -/
def Report.tell (report : Report) : Option (String → m Unit) → m (Option String)
  | none => pure report.result
  | some tell => do
    report.lines.forM tell
    pure report.result

section Lawful

variable [LawfulMonad m] {listener : Option (String → m Unit)}

/-- To tell lines around a report is to tell them with it. -/
theorem announce_tell (before : List String) (after : Option String → String) (report : Report) :
    announce listener before after (report.tell listener) =
      Report.tell ⟨report.result, before ++ report.lines ++ [after report.result]⟩ listener := by
  cases listener with
  | none => rfl
  | some tell => simp [announce, Report.tell, List.forM_append]

/-- A search for the first success tells what its report says. -/
theorem firstSuccessM_tell {α : Type} (attempt : α → Report) (xs : List α) :
    firstSuccessM (fun x => (attempt x).tell listener) xs =
      (firstSuccess attempt xs).tell listener := by
  induction xs with
  | nil => cases listener <;> simp [firstSuccessM, firstSuccess, Report.tell]
  | cons x xs ih =>
    rw [firstSuccessM, ih, firstSuccess]
    rcases attempt x with ⟨_ | value, lines⟩ <;> cases listener <;>
      simp [Report.tell, List.forM_append]

/-- What is told does not change when the result is used further. -/
theorem tell_bind (conclude : Option String → Option String) (report : Report) :
    (do
      let result ← report.tell listener
      pure (conclude result)) = Report.tell ⟨conclude report.result, report.lines⟩ listener := by
  cases listener <;> simp [Report.tell]

/-- To run steps before a listener is to trace them and to tell the trace. -/
theorem runTelling_eq_tell (tree : Tree) (index : Nat) (steps : List Step) (s : State tree) :
    runTelling listener tree index steps s = (trace tree index steps s).tell listener := by
  induction steps generalizing index s with
  | nil => cases listener <;> simp [runTelling, trace, Report.tell]
  | cons step rest ih =>
    have tries : firstSuccessM (runTelling listener tree (index + 1) rest) (step.successors s) =
        (firstSuccess (trace tree (index + 1) rest) (step.successors s)).tell listener := by
      rw [← firstSuccessM_tell]
      exact congrArg (firstSuccessM · _) (funext fun t => ih (index + 1) t)
    rw [runTelling, tries, tell_bind, announce_tell, trace]
    rfl

theorem walkTelling_eq_tell (sink : Sink) (steps : List Step) (tree : Tree) (start : Point tree) :
    walkTelling listener steps tree start =
      ((⟨steps, some sink⟩ : Plan).walk tree start).tell listener := by
  cases steps with
  | nil => cases listener <;> simp [walkTelling, Plan.walk, Plan.run, trace, Report.tell]
  | cons first rest =>
    rw [walkTelling, runTelling_eq_tell, announce_tell]
    rfl

theorem walkFromTelling_eq_tell (sink : Sink) (steps : List Step) (tree : Tree) (index : Nat)
    (start : Point tree) :
    walkFromTelling listener steps tree index start =
      ((⟨steps, some sink⟩ : Plan).walkFrom tree index start).tell listener :=
  runTelling_eq_tell ..

end Lawful

/-- The options, but with another choice of whether and where to report. -/
def Options.reporting (options : Options) (verbose : Bool) (sink : Option Sink) : Options :=
  { options.withVerbose verbose with sink }

/-- A visit asks the options for the words that an index keeps and for the version policy only. -/
theorem Draft.visit_reporting (registry : Registry) (options : Options) (verbose : Bool)
    (sink : Option Sink) (pattern : Pattern) (d : Draft) :
    visit registry (options.reporting verbose sink) pattern d =
      visit registry options pattern d := by
  induction pattern generalizing d with
  | path ops => rfl
  | lookup name default inner ih => rw [visit, visit, ih]
  | cleanVersion inner ih =>
    rw [visit, visit, ih]
    rfl
  | isNull inner ih => rfl

theorem draftOf_reporting (registry : Registry) (options : Options) (verbose : Bool)
    (sink : Option Sink) (pattern : Pattern) :
    draftOf registry (options.reporting verbose sink) pattern =
      draftOf registry options pattern := by
  cases pattern with
  | isNull inner => exact Draft.visit_reporting ..
  | _ => exact Draft.visit_reporting ..

/-- Another choice of reporting changes nothing of a compilation but the sink of the plan. -/
theorem compile_reporting (registry : Registry) (options : Options) (verbose : Bool)
    (sink : Option Sink) (pattern : Pattern) :
    compile registry (options.reporting verbose sink) pattern =
      (compile registry options pattern).map fun c =>
        ⟨⟨c.plan.steps, (options.reporting verbose sink).activeSink⟩, c.answered, c.lines⟩ := by
  rw [compile, compile, draftOf_reporting]
  cases draftOf registry options pattern <;> rfl

/-- A listener of any kind is told what a verbose walk reports, and the walk gives the answer of a
silent one, from the start or resumed anywhere. Whether and where a compilation reports changes
neither its steps with their positions and links nor its failure. -/
theorem reporting_changes_no_answer [LawfulMonad m] (tell : String → m Unit) (steps : List Step)
    (sink : Sink) :
    (∀ (tree : Tree) (start : Point tree),
      let verbose := (⟨steps, some sink⟩ : Plan).walk tree start
      let silent := (⟨steps, none⟩ : Plan).walk tree start
      verbose.result = silent.result ∧ silent.lines = [] ∧
        walkTelling none steps tree start = (pure silent.result : m (Option String)) ∧
        walkTelling (some tell) steps tree start = do
          verbose.lines.forM tell
          pure silent.result) ∧
    (∀ (tree : Tree) (index : Nat) (start : Point tree),
      let verbose := (⟨steps, some sink⟩ : Plan).walkFrom tree index start
      let silent := (⟨steps, none⟩ : Plan).walkFrom tree index start
      verbose.result = silent.result ∧ silent.lines = [] ∧
        walkFromTelling none steps tree index start = (pure silent.result : m (Option String)) ∧
        walkFromTelling (some tell) steps tree index start = do
          verbose.lines.forM tell
          pure silent.result) ∧
    ∀ (registry : Registry) (options : Options) (pattern : Pattern) (verbose : Bool)
      (sink : Option Sink),
      compile registry (options.reporting verbose sink) pattern =
          ((compile registry options pattern).map fun c =>
            ⟨⟨c.plan.steps, (options.reporting verbose sink).activeSink⟩, c.answered, c.lines⟩) ∧
        (compile registry (options.reporting verbose sink) pattern).map (·.plan.placed) =
          (compile registry options pattern).map (·.plan.placed) := by
  refine ⟨?_, ?_, ?_⟩
  · intro tree start verbose silent
    have same : verbose.result = silent.result := by
      rw [Plan.walk_result, Plan.walk_result]
    have quiet : silent.lines = [] := by
      cases steps <;> rfl
    refine ⟨same, quiet, ?_, ?_⟩
    · rw [walkTelling_eq_tell sink, ← same]
      rfl
    · rw [walkTelling_eq_tell sink, ← same]
      rfl
  · intro tree index start verbose silent
    have same : verbose.result = silent.result := by
      rw [Plan.walkFrom_result, Plan.walkFrom_result]
    refine ⟨same, rfl, ?_, ?_⟩
    · rw [walkFromTelling_eq_tell sink, ← same]
      rfl
    · rw [walkFromTelling_eq_tell sink, ← same]
      rfl
  · intro registry options pattern verbose sink
    have steps := compile_reporting registry options verbose sink pattern
    refine ⟨steps, ?_⟩
    rw [steps]
    cases compile registry options pattern <;> rfl

theorem reporting_changes_no_answer_words :
    let tree := ((Tree.leaf "sentence" "a b").addChild (Tree.root _) "word" "a").addChild
      (Tree.root _) "word" "b"
    let steps : List Step := [.path (.down .star none), .path (.test .equals "b"), .path .full]
    let start : Point tree := ⟨tree.root, "v"⟩
    let tell : String → StateM (List String) Unit := fun line told => ((), told ++ [line])
    let pattern : Pattern := .path [.full, .move .up]
    let twice : Pattern := .path [.move .up, .full]
    LawfulMonad (StateM (List String)) ∧
      (walkTelling (some tell) steps tree start).run ["earlier"] =
        (((⟨steps, none⟩ : Plan).walk tree start).result,
          "earlier" :: ((⟨steps, some .log⟩ : Plan).walk tree start).lines) ∧
      ((⟨steps, none⟩ : Plan).walk tree start).result = some "b" ∧
      ((⟨steps, some .log⟩ : Plan).walk tree start).lines.length = 11 ∧
      (walkFromTelling (some tell) steps tree 2 start).run [] =
        (some "a b", ["2: >>> BackToFull() on >>>a b<<< with \"v\"", "2: <<< BackToFull() (+)"]) ∧
      compile .empty (Options.reporting {} true (some .memory)) pattern =
        .ok ⟨⟨[.path (.move .up)], some .memory⟩, [.full], dump pattern [.path (.move .up)]⟩ ∧
      (compile .empty (Options.reporting {} true (some .memory)) twice).map (·.plan.placed) =
        .ok [⟨0, some 1, .path (.move .up)⟩, ⟨1, none, .path .full⟩] := by
  intro tree steps start tell pattern twice
  obtain ⟨walks, resumptions, compilations⟩ := reporting_changes_no_answer tell steps .log
  obtain ⟨-, -, -, whole⟩ := walks tree start
  obtain ⟨-, -, -, resumed⟩ := resumptions tree 2 start
  refine ⟨inferInstance, ?_, by decide, by decide, ?_, ?_, ?_⟩
  · rw [whole]
    rfl
  · rw [resumed]
    rfl
  · rw [(compilations .empty {} pattern true (some .memory)).1]
    rfl
  · rw [(compilations .empty {} twice true (some .memory)).2]
    rfl

end TreePattern
