/-!
Faults: the ways a computation over fixed-width integers is refused.

A sum that leaves its word, a variable numbered zero, an enumeration that is too wide or a list that
is too long has no answer. Such a computation ends in a `Fault` that names its cause, and
`Fault.message` holds the wording of every cause.
-/

namespace PseudoBoolean

/-- The arithmetic operation whose exact result does not fit its word. -/
inductive Arithmetic where
  | add
  | subtract
  | negate
  | multiply
  | shiftLeft
  deriving DecidableEq, Repr

/-- The verb that names an operation in a message. -/
def Arithmetic.verb : Arithmetic → String
  | .add => "add"
  | .subtract => "subtract"
  | .negate => "negate"
  | .multiply => "multiply"
  | .shiftLeft => "shift left"

/-- Why a computation has no answer. -/
inductive Fault where
  /-- The exact result of an operation does not fit its word. -/
  | overflow (op : Arithmetic)
  /-- Variables are numbered from one. -/
  | zeroVariable
  /-- Zero closes a clause and is no literal. -/
  | zeroLiteral
  /-- An instance has as many coefficients as variables. -/
  | unpaired (coefficients vars : Nat)
  /-- A weighted sum has at least as many variables as coefficients. -/
  | tooFewVariables (coefficients vars : Nat)
  /-- An enumeration is limited to a few variables. -/
  | tooManyAssignments (vars : Nat)
  /-- Models of clauses are counted over all of their variables. -/
  | clausesAbove (count : Nat)
  /-- Models of constraints are counted over all of their variables. -/
  | constraintsAbove (count : Nat)
  /-- A random value is drawn from a range that holds one. -/
  | emptyRange
  /-- A list lies in memory as a whole. -/
  | capacity
  /-- An artifact directory is named by a valid file stem. -/
  | invalidTestName (name : String)
  /-- A tool gave up with a message of its own. -/
  | raised (message : String)
  deriving DecidableEq, Repr

namespace Fault

/-- The report of a failed comparison: what was compared, why, and the two sides. -/
def comparison (relation reason : String) (left right : Nat) : String :=
  "assertion `left " ++ relation ++ " right` failed: " ++ reason ++
    "\n  left: " ++ toString left ++ "\n right: " ++ toString right

/-- The wording of a fault. -/
def message : Fault → String
  | overflow op => "attempt to " ++ op.verb ++ " with overflow"
  | zeroVariable => comparison "!=" "Variable IDs must be >= 1" 0 0
  | zeroLiteral => comparison "!=" "Literal cannot be zero" 0 0
  | unpaired coefficients vars =>
    comparison "==" "coefficients and variables must pair up" coefficients vars
  | tooFewVariables coefficients vars =>
    toString coefficients ++ " coefficients for " ++ toString vars ++ " variables"
  | tooManyAssignments vars => "refusing to enumerate 2^" ++ toString vars ++ " assignments"
  | clausesAbove count => "clauses mention variables above x" ++ toString count
  | constraintsAbove count => "constraints mention variables above x" ++ toString count
  | emptyRange => "cannot sample empty range"
  | capacity => "capacity overflow"
  | invalidTestName name => "test name `" ++ name ++ "` is not a valid file stem"
  | raised text => text

end Fault

/-- A computation that may end in a fault. -/
abbrev Checked := Except Fault

end PseudoBoolean
