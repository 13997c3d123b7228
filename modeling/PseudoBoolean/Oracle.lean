import PseudoBoolean.Linear.Constraint
import PseudoBoolean.Enumeration

/-!
Ground truth by enumeration.

The optimum of a form over the models of some rows is the best of its values at all assignments of
the variables that occur. No encoder and no solver takes part.
-/

namespace PseudoBoolean.Oracle

/-- The variables of some rows and forms, ascending. -/
def support (rows : List Row) (forms : List LinearForm) : List Var :=
  sortedVars (rows.flatMap Row.vars ++ forms.flatMap LinearForm.vars)

/-- The better of the best value so far and a new one. -/
def improve (better : Int64 → Int64 → Int64) (best : Option Int64) (value : Int64) : Option Int64 :=
  some (best.elim value (better · value))

/-- The best value of `objective` over the models of `rows`, if there are models. -/
def optimum (better : Int64 → Int64 → Int64) (rows : List Row) (objective : LinearForm) :
    Checked (Option Int64) :=
  Assignment.visit (support rows [objective])
    (fun best a => do
      if ← Row.allSatisfied rows a.value then
        return improve better best (← objective.evaluate a.value)
      else return best)
    none

/-- The least value of `objective` over the models of `rows`. -/
def minimize (rows : List Row) (objective : LinearForm) : Checked (Option Int64) :=
  optimum min rows objective

/-- The greatest value of `objective` over the models of `rows`. -/
def maximize (rows : List Row) (objective : LinearForm) : Checked (Option Int64) :=
  optimum max rows objective

/-- The number of models of `rows` over `x1` to `x<total>`. -/
def countModels (rows : List Row) (total : UInt32) : Checked Nat := do
  let vars := support rows []
  if vars.all (·.id ≤ total) then
    Assignment.countOver vars total.toNat fun a => Row.allSatisfied rows a.value
  else throw (.constraintsAbove total.toNat)

end PseudoBoolean.Oracle
