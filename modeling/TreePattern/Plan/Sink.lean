/-!
Where the lines of a verbose plan go: to a list kept in memory, or to the log.
-/
namespace TreePattern

inductive Sink where
  | memory | log
  deriving DecidableEq, Repr

/-- The lines that reached the memory and those that reached the log. -/
structure Delivery where
  memory : List String
  log : List String
  deriving DecidableEq, Repr

/-- A line as the log shows it. -/
def logLine (line : String) : String := "INFO treewalk::walk: " ++ line

def deliver : Option Sink → List String → Delivery
  | none, _ => ⟨[], []⟩
  | some .memory, lines => ⟨lines, []⟩
  | some .log, lines => ⟨[], lines.map logLine⟩

@[simp] theorem deliver_nil (sink : Option Sink) : deliver sink [] = ⟨[], []⟩ := by
  rcases sink with _ | _ | _ <;> rfl

end TreePattern
