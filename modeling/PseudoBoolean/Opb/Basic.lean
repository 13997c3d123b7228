import PseudoBoolean.Linear.Constraint

/-!
Formulas of the OPB format: rows, an optional objective to minimize, and their text.

    * #variable=3 #constraint=1
    min: +1 x1 +1 x2 +1 x3 ;
    +1 x1 +1 x2 +1 x3 >= 2 ;

The format has no place for a constant in the objective, so none is written.
-/

namespace PseudoBoolean

/-- Rows with an optional objective. At least `minVars` variables are declared. -/
structure Opb where
  rows : List Row
  objective : Option LinearForm
  minVars : UInt32
  deriving DecidableEq

namespace Opb

/-- The formula of some rows alone. -/
def ofRows (rows : List Row) : Opb := ⟨rows, none, 0⟩

/-- The formula without rows. -/
def empty : Opb := ofRows []

/-- The last variable of every row and of the objective. -/
def maxVars (f : Opb) : List Var :=
  f.rows.filterMap (·.maxVar?) ++ f.objective.toList.filterMap (·.maxVar?)

/-- The number of variables: the highest in use, or more if more are declared. -/
def numVars (f : Opb) : UInt32 := (f.maxVars.map (·.id)).foldl max f.minVars

/-- Whether a valuation satisfies every row. -/
def isSatisfied (f : Opb) (v : Valuation) : Checked Bool := Row.allSatisfied f.rows v

/-! ### Text -/

/-- The comment that declares the counts. -/
def header (f : Opb) : String :=
  "* #variable=" ++ toString f.numVars.toNat ++ " #constraint=" ++ toString f.rows.length

/-- The words of the objective's statement, without its constant. -/
def objectiveWords (g : LinearForm) : List String := "min:" :: g.terms.flatMap Term.words

/-- The words of each statement, the objective first. -/
def statements (f : Opb) : List (List String) :=
  f.objective.toList.map objectiveWords ++ f.rows.map Row.words

/-- The lines of a formula: the declaration, then one statement each. -/
def lines (f : Opb) : List String :=
  f.header :: f.statements.map fun words => Text.joinWords (words ++ [";"])

/-- The text of a formula. -/
def render (f : Opb) : String := String.join (f.lines.map (· ++ "\n"))

end Opb

end PseudoBoolean
