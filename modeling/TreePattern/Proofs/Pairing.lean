import TreePattern.Proofs.Resumption
import TreePattern.Proofs.Visit
/-!
Defaults and the look-ups that they belong to. In a compiled plan the step that makes a default
ready and the look-up that uses it up enclose the steps of all forms inside, like a pair of
brackets. At each position that a walk enters, its defaults are those of the pairs that are open
there, so that a look-up finds its own default on top or takes none.
-/
namespace TreePattern

/-- A look-up with a default, and the positions of its two steps. -/
structure Bracket where
  table : String
  default : String
  opening : Nat
  closing : Nat
  deriving DecidableEq, Repr

namespace Pattern

/-- The look-ups with a default, the outermost first, of a pattern that fills the positions from
`first` on and before `stop`. -/
def brackets : Pattern → Nat → Nat → List Bracket
  | .path _, _, _ => []
  | .lookup table (some default) inner, first, stop =>
    ⟨table, default, first, stop - 1⟩ :: inner.brackets (first + 1) (stop - 1)
  | .lookup _ none inner, first, stop | .cleanVersion inner, first, stop =>
    inner.brackets first (stop - 1)
  | .isNull inner, first, stop => inner.brackets (first + 1) stop

end Pattern

section Forms

variable {tables : String → Table} {policy : VersionPolicy}

namespace Form

variable {form : Form} {forms : List Form} {ops : List PathOp} {first position : Nat}

/-- The brackets of forms around a path, the steps of which stand from `first` on. -/
def brackets (tables : String → Table) (policy : VersionPolicy) (forms : List Form)
    (ops : List PathOp) (first : Nat) : List Bracket :=
  (Pattern.enclose forms ops).brackets first (first + (steps tables policy false forms ops).length)

end Form

namespace Form

variable {forms : List Form} {ops : List PathOp} {first position : Nat}

end Form

end Forms

variable {tree : Tree}

end TreePattern
