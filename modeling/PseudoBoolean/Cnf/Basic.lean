import PseudoBoolean.Linear.Constraint

/-!
Formulas in conjunctive normal form.

A clause says the same as a row: some literal of it is true exactly when the literals, each counted
as zero or one, sum to one at least.
-/

namespace PseudoBoolean

/-- A disjunction of literals, in the order written. -/
abbrev Clause := List Lit

/-- A conjunction of clauses. At least `declaredVars` variables are declared. -/
structure Cnf where
  clauses : List Clause
  declaredVars : UInt32
  deriving DecidableEq

namespace Cnf

/-- The formula of some clauses alone. -/
def ofClauses (clauses : List Clause) : Cnf := ⟨clauses, 0⟩

/-- The variables of the clauses, as they occur. -/
def vars (f : Cnf) : List Var := f.clauses.flatten.map (·.var)

/-- The number of variables: the highest in use, or more if more are declared. -/
def numVars (f : Cnf) : UInt32 := (f.vars.map (·.id)).foldl max f.declaredVars

/-- Whether a valuation satisfies every clause. -/
def isSatisfied (f : Cnf) (v : Valuation) : Bool :=
  f.clauses.all fun clause => clause.any (·.holds v)

end Cnf

/-- The row of a clause: its literals sum to one at least. -/
def Clause.toRow (clause : Clause) : Checked Row :=
  ((Expression.raw (clause.map fun l => ⟨1, l⟩)).geq 1).normalize

/-- The rows of the clauses, in order. -/
def Cnf.toRows (f : Cnf) : Checked (List Row) := f.clauses.mapM Clause.toRow

end PseudoBoolean
