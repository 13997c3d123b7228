import PseudoBoolean.Linear.Expression

/-!
Constraints: an expression against a degree, and the rows that they are normalized to.

The left-hand side of a row has no constant: normalizing moves it to the other side, and a row cannot
be built otherwise. Only `>=` and `=` exist; `<=` is stored negated.
-/

namespace PseudoBoolean

/-- How a left-hand side compares with the degree. -/
inductive Relation where
  | geq
  | eq
  deriving DecidableEq

namespace Relation

def holds : Relation → Int64 → Int64 → Bool
  | geq, lhs, degree => degree ≤ lhs
  | eq, lhs, degree => lhs == degree

/-- The sign of a relation in a file. -/
def symbol : Relation → String
  | geq => ">="
  | eq => "="

/-- The name of a relation in an instance's name. -/
def name : Relation → String
  | geq => "geq"
  | eq => "eq"

end Relation

/-- An expression compared with a degree. -/
structure Constraint where
  lhs : Expression
  relation : Relation
  degree : Int64
  deriving DecidableEq

/-- A normalized constraint: a form whose constant is zero, compared with a degree. -/
structure Row where
  lhs : LinearForm
  relation : Relation
  degree : Int64
  offset_eq : lhs.offset = 0
  deriving DecidableEq

namespace Expression

/-- `e >= degree`. -/
def geq (e : Expression) (degree : Int64) : Constraint := ⟨e, .geq, degree⟩

/-- `e = degree`. -/
def equals (e : Expression) (degree : Int64) : Constraint := ⟨e, .eq, degree⟩

/-- `e <= degree`, stored as `-e >= -degree`. -/
def leq (e : Expression) (degree : Int64) : Checked Constraint := do
  let lhs ← e.neg
  return ⟨lhs, .geq, ← Word.neg degree⟩

end Expression

/-- The row of a constraint: the constant of its left-hand side moves into the degree. -/
def Constraint.normalize (c : Constraint) : Checked Row := do
  let form ← c.lhs.normalize
  let degree ← Word.sub c.degree form.offset
  return ⟨form.withoutOffset, c.relation, degree, form.offset_withoutOffset⟩

namespace Row

/-- The terms of the left-hand side, which is nothing else. -/
def terms (r : Row) : List Term := r.lhs.terms

/-- A row as a constraint whose left-hand side is a form. -/
def toConstraint (r : Row) : Constraint := ⟨.normal r.lhs, r.relation, r.degree⟩

def vars (r : Row) : List Var := r.lhs.vars

def maxVar? (r : Row) : Option Var := r.lhs.maxVar?

/-- Whether a valuation satisfies the row. -/
def isSatisfied (r : Row) (v : Valuation) : Checked Bool := do
  return r.relation.holds (← r.lhs.evaluate v) r.degree

/-- Whether the degree lies outside the bounds of the left-hand side. -/
def isTriviallyUnsat (r : Row) : Checked Bool := do
  match r.relation with
  | .geq => return (← r.lhs.maxValue) < r.degree
  | .eq =>
    if r.degree < (← r.lhs.minValue) then return true
    return (← r.lhs.maxValue) < r.degree

/-- The words of a row: its terms, the sign of the relation and the degree. -/
def words (r : Row) : List String :=
  r.terms.flatMap Term.words ++ [r.relation.symbol, Decimal.ofInt r.degree.toInt]

/-- The text of a row. -/
def text (r : Row) : String := Text.joinWords r.words

end Row

/-- Whether a valuation satisfies every row; rows after a violated one are not evaluated. -/
def Row.allSatisfied (rows : List Row) (v : Valuation) : Checked Bool := rows.allM (·.isSatisfied v)

end PseudoBoolean
