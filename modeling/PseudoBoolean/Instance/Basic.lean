import PseudoBoolean.Artifact
import PseudoBoolean.Oracle
import PseudoBoolean.SubsetSum

/-!
Test instances: a named constraint over weighted variables, with side constraints at will.

The objective of an instance is the left-hand side of its constraint. Its expected answer is
computed from the instance alone: from the coefficients where every variable occurs once and there
is no side constraint, and over the variables otherwise.
-/

namespace PseudoBoolean

/-- `Σ coeffs[i] * vars[i]` compared with a degree, and rows that must hold besides. -/
structure Instance where
  name : String
  coeffs : List Int64
  vars : List Var
  degree : Int64
  relation : Relation
  sideRows : List Row
  paired : coeffs.length = vars.length

namespace Instance

/-- The instance without side constraints; coefficients and variables must pair up. -/
def make (name : String) (coeffs : List Int64) (vars : List Var) (degree : Int64)
    (relation : Relation) : Checked Instance :=
  if h : coeffs.length = vars.length then .ok ⟨name, coeffs, vars, degree, relation, [], h⟩
  else .error (.unpaired coeffs.length vars.length)

/-- The instance with other side constraints. -/
def withSideRows (i : Instance) (rows : List Row) : Instance := { i with sideRows := rows }

/-- The left-hand side. -/
def objective (i : Instance) : Expression :=
  .raw (i.coeffs.zipWith (fun c v => ⟨c, v.pos⟩) i.vars)

/-- The main constraint. -/
def constraint (i : Instance) : Constraint := ⟨i.objective, i.relation, i.degree⟩

/-- The row of the main constraint, then the side constraints. -/
def rows (i : Instance) : Checked (List Row) := do return (← i.constraint.normalize) :: i.sideRows

/-- The queries of an instance: an equality is checked from both sides. -/
def queries (i : Instance) : List Query :=
  match i.relation with
  | .geq => [.minimize]
  | .eq => [.minimize, .maximize]

/-- Whether the coefficients alone decide: no variable occurs twice and no side constraint
exists. -/
def isPlain (i : Instance) : Bool := i.sideRows.isEmpty && decide i.vars.Nodup

/-- The number of variables that the expected answer enumerates. -/
def oracleVars (i : Instance) : Checked Nat := do
  if i.isPlain then return i.vars.length
  else return (Oracle.support (← i.rows) []).length

/-- The expected optimum of a query, if the instance has a solution. -/
def expected (i : Instance) (query : Query) : Checked (Option Int64) := do
  if i.isPlain then
    match i.relation, query with
    | .eq, _ => SubsetSum.exactly i.coeffs i.degree
    | .geq, .minimize => SubsetSum.atLeast i.coeffs i.degree
    | .geq, .maximize => SubsetSum.greatest i.coeffs i.degree
  else
    let objective ← i.objective.normalize
    let rows ← i.rows
    match query with
    | .minimize => Oracle.minimize rows objective
    | .maximize => Oracle.maximize rows objective

/-- The text of an instance: its name, its main row and the number of side constraints. -/
def text (i : Instance) : Checked String := do
  let row ← i.constraint.normalize
  let side := if i.sideRows.isEmpty then "" else
    " (+" ++ toString i.sideRows.length ++ " side constraints)"
  return i.name ++ ": " ++ row.text ++ side

end Instance

end PseudoBoolean
