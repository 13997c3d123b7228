import PseudoBoolean.Linear.Form

/-!
Expressions: a weighted literal list as it was written, or its linear form.

Lists are added by appending them. A list has no room for a constant, so a sum with a form on either
side is a form.
-/

namespace PseudoBoolean

/-- A linear expression, before or after its terms were collected. -/
inductive Expression where
  | raw (terms : List Term)
  | normal (form : LinearForm)
  deriving DecidableEq

namespace Expression

/-- The expression without terms. -/
def empty : Expression := .raw []

/-- One coefficient on one literal. -/
def ofTerm (coeff : Int64) (l : Lit) : Expression := .raw [⟨coeff, l⟩]

/-- A literal as a sum of one. -/
def ofLit (l : Lit) : Expression := ofTerm 1 l

/-- A variable as a sum of one. -/
def ofVar (v : Var) : Expression := ofLit v.pos

/-- Coefficients on the first variables of a list. -/
def weightedSum (coeffs : List Int64) (vars : List Var) : Checked Expression :=
  if coeffs.length ≤ vars.length then
    .ok (.raw (coeffs.zipWith (fun c v => ⟨c, v.pos⟩) vars))
  else .error (.tooFewVariables coeffs.length vars.length)

def isNormal : Expression → Bool
  | raw _ => false
  | normal _ => true

/-- The linear form of an expression. A form is left as it is. -/
def normalize : Expression → Checked LinearForm
  | raw terms => LinearForm.collect terms 0
  | normal form => .ok form

/-- The value under a valuation: the sum of the coefficients on true literals. -/
def evaluate : Expression → Valuation → Checked Int64
  | raw terms, v => Word.sum ((terms.filter (·.lit.holds v)).map (·.coeff))
  | normal form, v => form.evaluate v

/-- The sum of two expressions. -/
def add : Expression → Expression → Checked Expression
  | raw ts, raw us => .ok (.raw (ts ++ us))
  | e, f => do
    let left ← e.normalize
    let right ← f.normalize
    return .normal (← left.plus right)

/-- The expression with every coefficient negated. -/
def neg : Expression → Checked Expression
  | raw terms => do
    return .raw (← terms.mapM fun t => do return { t with coeff := ← Word.neg t.coeff })
  | normal form => do return .normal (← form.negate)

/-- The difference of two expressions. -/
def sub (e f : Expression) : Checked Expression := do e.add (← f.neg)

/-- The sum of a list, from left to right. -/
def sum (es : List Expression) : Checked Expression := es.foldlM add empty

end Expression

end PseudoBoolean
