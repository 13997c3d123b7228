import PseudoBoolean.Cnf.Basic
import PseudoBoolean.Enumeration

/-!
Counting the models of clauses.

Only the variables that occur are enumerated; each of the others doubles the count.
-/

namespace PseudoBoolean.Cnf

/-- The number of models over `x1` to `x<total>`. -/
def countModels (f : Cnf) (total : UInt32) : Checked Nat := do
  let vars := sortedVars f.vars
  if vars.all (·.id ≤ total) then
    Assignment.countOver vars total.toNat fun a => return f.isSatisfied a.value
  else throw (.clausesAbove total.toNat)

end PseudoBoolean.Cnf
