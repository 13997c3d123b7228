import PseudoBoolean.Toolchain.Basic
import PseudoBoolean.Oracle

/-!
Tools that decide everything by enumeration.

The encoder blocks every violating assignment with one clause,

    a violates the rows   ⟼   (x₁ ≠ a₁) ∨ (x₂ ≠ a₂) ∨ ⋯ ∨ (xₙ ≠ aₙ),

the checker compares the models of the source with those of the clauses, projected onto the
variables of the source, and the solver asks the oracle.
-/

namespace PseudoBoolean.Exhaustive

/-! ### Encoder -/

/-- The first line of a proof. -/
def proofHeader : String := "pseudo-Boolean proof version 1.2\n"

/-- The clause that is false at an assignment and true at every other one of its support. -/
def blockingClause (a : Assignment) : Checked Clause :=
  a.support.mapM fun v => if a.value v then v.neg else return v.pos

/-- One blocking clause for each assignment of `x1` to `x<n>` that violates the formula. -/
def encodeFormula (f : Opb) : Checked Cnf := do
  enumerable f.numVars.toNat
  let violating ← Assignment.select (Var.range f.numVars) fun a => do
    return !(← f.isSatisfied a.value)
  return Cnf.ofClauses (← violating.mapM blockingClause)

/-- Leaves the clauses and a proof beside the source. Every variable of the source stays
declared. -/
def encode : Encoder := fun source _ => do
  let f ← Opb.load source
  let cnf ← encodeFormula f
  let output := EncoderOutput.beside source
  Cnf.save { cnf with declaredVars := f.numVars } output.cnf
  Action.writeText output.proof proofHeader
  return output

/-! ### Checker -/

/-- The auxiliary variables of clauses over a formula of `n` variables: those numbered above `n`. -/
def auxiliary (n : UInt32) (cnf : Cnf) : Checked (List Var) := do
  let count := cnf.numVars.toNat - n.toNat
  enumerable count
  return (List.range' (n.toNat + 1) count).filterMap Var.ofNat?

/-- `a` on the variables up to `n`, `b` above. -/
def glue (n : UInt32) (a b : Valuation) : Valuation := fun v => if v.id ≤ n then a v else b v

/-- Whether some setting of the auxiliary variables makes the clauses true at `a`. -/
def extends? (n : UInt32) (cnf : Cnf) (aux : List Var) (a : Assignment) : Checked Bool := do
  let found ← Assignment.search? aux fun b => return cnf.isSatisfied (glue n a.value b.value)
  return found.isSome

/-- The first assignment on which the formula and the clauses differ. -/
def difference? (f : Opb) (cnf : Cnf) : Checked (Option Assignment) := do
  let n := f.numVars
  let _ ← Word.checkedCount .add (n.toNat + 1)
  enumerable n.toNat
  let aux := auxiliary n cnf
  Assignment.search? (Var.range n) fun a => do
    let encoded ← extends? n cnf (← aux) a
    return (← f.isSatisfied a.value) != encoded

/-- The literals that are true at an assignment, as words. -/
def witnessText (a : Assignment) : Checked String := do
  let literals ← a.support.mapM fun v => if a.value v then return v.pos else v.neg
  return Text.joinWords (literals.map Lit.text)

/-- Accepts a proof with the right header exactly if the clauses beside it have the models of the
source. -/
def check : Checker := fun source proof => do
  let reject (reason : String) : Action Unit :=
    Action.fail (.verificationFailure source proof reason)
  if !proofHeader.toList.isPrefixOf (← Action.readText proof).toList then
    reject "missing proof header"
  else
    let f ← Opb.load source
    let cnf ← Cnf.load (proof.withExtension "cnf")
    match ← difference? f cnf with
    | none => return ()
    | some a => reject ("models differ at " ++ (← witnessText a))

/-! ### Solver -/

/-- The optimum of the file's objective, which is zero if it has none. -/
def solve : Solver := fun source => do
  let f ← Opb.load source
  match ← Oracle.minimize f.rows (f.objective.getD LinearForm.zero) with
  | some value => return Answer.optimum value
  | none => return Answer.unsatisfiable

/-- The tools that need no program. -/
def toolchain : Toolchain := ⟨encode, check, solve⟩

end PseudoBoolean.Exhaustive
