import TreePattern.Pattern.Index
import TreePattern.Plan.Basic
/-!
Compiling a pattern into a plan. The operations of its path become steps from the entry point on;
an index has answered those before it. The forms around the path always become steps: a default
is made ready before the path is walked, and the rest of each form acts on the value that the
path has found.
-/
namespace TreePattern

/-- Why a compilation failed, and which operations were found answered before. -/
structure Failure where
  error : Error
  answered : List PathOp
  deriving DecidableEq, Repr

/-- What a compilation has made so far, and whether it is past the entry point. -/
structure Draft where
  entered : Bool
  steps : List Step
  answered : List PathOp

namespace Draft

def push (d : Draft) (steps : List Step) : Draft := { d with steps := d.steps ++ steps }

/-- An operation becomes a step if the entry point lies before it, and is answered otherwise. -/
def visitOp (limit : UInt64) (d : Draft) (op : PathOp) : Draft :=
  let reached := d.entered || op.gate limit = .before
  let entered := reached || op.gate limit = .after
  if reached then { d with entered, steps := d.steps ++ [.path op] }
  else { d with entered, answered := d.answered ++ [op] }

/-- A null test turns around the answer of all steps after it, so none can stand in here. -/
def visit (registry : Registry) (options : Options) : Pattern → Draft → Except Failure Draft
  | .path ops, d => return ops.foldl (visitOp options.settings.indexedWordLimit) d
  | .lookup name default inner, d => do
    let d ← visit registry options inner (d.push (default.toList.map .pushDefault))
    match registry.get? name with
    | some table => return d.push [.lookup name table default.isSome]
    | none => throw ⟨.missingTable name, d.answered⟩
  | .cleanVersion inner, d => do
    let d ← visit registry options inner d
    return d.push [.cleanVersion options.policy]
  | .isNull inner, d => throw ⟨.innerNullTest (Pattern.isNull inner).text, d.answered⟩

/-- Nothing is made yet. Without an index the entry point is the start of the path. -/
def start (options : Options) : Draft := ⟨!options.settings.staticIndex, [], []⟩

end Draft

/-- All that a pattern becomes. A null test can only stand around the whole of it. -/
def draftOf (registry : Registry) (options : Options) : Pattern → Except Failure Draft
  | .isNull inner => Draft.visit registry options inner ((Draft.start options).push [.isNull])
  | pattern => Draft.visit registry options pattern (Draft.start options)

def stepsOf (registry : Registry) (options : Options) (pattern : Pattern) :
    Except Failure (List Step) :=
  (draftOf registry options pattern).map Draft.steps

/-- A line of the log for an operation that the index answers. -/
def answeredLine (op : PathOp) : String :=
  "TRACE treewalk::compiler: Resolved by static index, not compiled: " ++ (Step.path op).text

/-- What a verbose compilation reports: the pattern and its numbered steps. -/
def dump (pattern : Pattern) (steps : List Step) : List String :=
  "------------------------------------" :: ("Required: " ++ pattern.text) ::
    steps.zipIdx.map fun p => Text.ofNat (p.2 + 1) ++ ": " ++ p.1.text

/-- A plan, the operations that the index answers in its stead, and what is reported. -/
structure Compiled where
  plan : Plan
  answered : List PathOp
  lines : List String

def compile (registry : Registry) (options : Options) (pattern : Pattern) :
    Except Failure Compiled := do
  let d ← draftOf registry options pattern
  return ⟨⟨d.steps, options.activeSink⟩, d.answered, dump pattern d.steps⟩

/-- Makes the plan of a pattern without a report of its steps. -/
def assemble (registry : Registry) (options : Options) (pattern : Pattern) :
    Except Failure Compiled := do
  let d ← draftOf registry options pattern
  return ⟨⟨d.steps, options.activeSink⟩, d.answered, []⟩

/-- What reaches the memory and the log during a compilation. An answered operation is logged when it
is met, also if the compilation fails later; the dump goes to the sink when all steps are made. -/
def reported : Except Failure Compiled → Delivery
  | .ok c =>
    let dumped := deliver c.plan.sink c.lines
    { dumped with log := c.answered.map answeredLine ++ dumped.log }
  | .error f => ⟨[], f.answered.map answeredLine⟩

/-- Compiles with the default options, verbose or not. -/
def compileByDefault (registry : Registry) (verbose : Bool) (pattern : Pattern) :
    Except Failure Compiled :=
  compile registry (Options.withVerbose {} verbose) pattern

end TreePattern
