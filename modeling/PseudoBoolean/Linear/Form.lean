import PseudoBoolean.Literal
import PseudoBoolean.Word
import PseudoBoolean.Text.Line
import PseudoBoolean.Text.Decimal

/-!
Linear forms: a sum over variables, one coefficient each, and a constant.

A weighted literal list is collected into a form by moving each negative literal's coefficient into
the constant,

    c · ~x  =  c · (1 - x)  =  -c · x + c,

so equal functions of the variables have equal forms.
-/

namespace PseudoBoolean

/-- A coefficient on a literal. -/
structure Term where
  coeff : Int64
  lit : Lit
  deriving DecidableEq

/-- A term as two words, the coefficient with its sign. -/
def Term.words (t : Term) : List String := [Decimal.signed t.coeff.toInt, t.lit.text]

/-- A linear form: terms and a constant. -/
structure LinearForm where
  terms : List Term
  offset : Int64
  deriving DecidableEq

/-- A form under construction: coefficients by ascending variable, and the constant. -/
structure Collected where
  coeffs : List (Var × Int64)
  offset : Int64

/-- Changes the coefficient of `v`, zero where it has none, and keeps the variables ascending. -/
def updateCoeff (v : Var) (change : Int64 → Checked Int64) :
    List (Var × Int64) → Checked (List (Var × Int64))
  | [] => do return [(v, ← change 0)]
  | (w, c) :: rest =>
    if w.id < v.id then do return (w, c) :: (← updateCoeff v change rest)
    else if w = v then do return (w, ← change c) :: rest
    else do return (v, ← change 0) :: (w, c) :: rest

/-- Adds one term. A negative literal changes its variable's coefficient first, then the
constant. -/
def Collected.addTerm (acc : Collected) (t : Term) : Checked Collected :=
  if t.lit.isPositive then do
    return { acc with coeffs := ← updateCoeff t.lit.var (Word.add · t.coeff) acc.coeffs }
  else do
    let coeffs ← updateCoeff t.lit.var (Word.sub · t.coeff) acc.coeffs
    return ⟨coeffs, ← Word.add acc.offset t.coeff⟩

/-- The finished form: coefficients that cancelled out are dropped. -/
def Collected.form (acc : Collected) : LinearForm where
  terms := (acc.coeffs.filter (·.2 ≠ 0)).map fun (v, c) => ⟨c, v.pos⟩
  offset := acc.offset

namespace LinearForm

/-- The form of a term list plus a constant. -/
def collect (terms : List Term) (offset : Int64) : Checked LinearForm := do
  return (← terms.foldlM Collected.addTerm ⟨[], offset⟩).form

/-- The zero function. -/
def zero : LinearForm := ⟨[], 0⟩

def isConstant (f : LinearForm) : Bool := f.terms.isEmpty

def coefficients (f : LinearForm) : List Int64 := f.terms.map (·.coeff)

def vars (f : LinearForm) : List Var := f.terms.map (·.lit.var)

/-- The variable of the last term, the largest of an ascending form. -/
def maxVar? (f : LinearForm) : Option Var := f.vars.getLast?

/-- The form with every coefficient and the constant negated. -/
def negate (f : LinearForm) : Checked LinearForm := do
  let terms ← f.terms.mapM fun t => do return { t with coeff := ← Word.neg t.coeff }
  return ⟨terms, ← Word.neg f.offset⟩

/-- The same terms with constant zero. -/
def withoutOffset (f : LinearForm) : LinearForm := { f with offset := 0 }

@[simp] theorem offset_withoutOffset (f : LinearForm) : f.withoutOffset.offset = 0 := rfl

/-- The sum of two forms; the constants are added first. -/
def plus (f g : LinearForm) : Checked LinearForm := do
  collect (f.terms ++ g.terms) (← Word.add f.offset g.offset)

/-- The value under a valuation of the variables: terms from left to right, the constant last. -/
def evaluate (f : LinearForm) (v : Valuation) : Checked Int64 := do
  let total ← f.terms.foldlM
    (fun acc t => if v t.lit.var then Word.add acc t.coeff else return acc) 0
  Word.add total f.offset

/-- The smallest value: every negative coefficient counts. -/
def minValue (f : LinearForm) : Checked Int64 := do
  Word.add (← Word.sum (f.coefficients.map (min · 0))) f.offset

/-- The largest value: every positive coefficient counts. -/
def maxValue (f : LinearForm) : Checked Int64 := do
  Word.add (← Word.sum (f.coefficients.map (max · 0))) f.offset

/-- The words of the terms, then the constant if it is not zero or stands alone. -/
def words (f : LinearForm) : List String :=
  f.terms.flatMap Term.words ++
    (if f.offset ≠ 0 ∨ f.terms = [] then [Decimal.signed f.offset.toInt] else [])

/-- The text of a form. -/
def text (f : LinearForm) : String := Text.joinWords f.words

end LinearForm

end PseudoBoolean
