import PseudoBoolean.Artifact

/-!
The pipeline of one instance: construct, encode, verify, load, then query.

    rows ──write──▶ source ──encode──▶ clauses, proof ──check──▶ ──load──▶ Encoded
                                                                              │
    Answer ◀──shift── solve ◀──write── clauses as rows, objective ◀──────────┘

Stages run in this order and the first failure ends the run. Only `encode` makes an `Encoded`, so no
clauses reach a solver before their proof was accepted. Every effect is noted in a journal.
-/

namespace PseudoBoolean

/-- A stage of the pipeline. -/
inductive Stage where
  | construct
  | encode
  | verify
  | loadCnf
  | minimize
  | maximize
  deriving DecidableEq

namespace Stage

def text : Stage → String
  | construct => "construct"
  | encode => "encode"
  | verify => "verify"
  | loadCnf => "load-cnf"
  | minimize => "minimize"
  | maximize => "maximize"

/-- The stages in order. -/
def all : List Stage := [construct, encode, verify, loadCnf, minimize, maximize]

/-- The stage that answers a query. -/
def ofQuery : Query → Stage
  | .minimize => minimize
  | .maximize => maximize

end Stage

/-! ### Effects -/

/-- What a run does to its surroundings. -/
inductive Effect where
  | makeDir (dir : Path)
  | write (file : Path)
  | encode (source : Path)
  | check (source proof : Path)
  | load (cnf : Path)
  | solve (query : Path)
  deriving DecidableEq

/-- The stage that writes or reads a file of an instance: the source is constructed, and any other
file poses a query. -/
def Stage.ofFile (artifacts : Artifacts) (file : Path) : Stage :=
  if file = artifacts.source then construct
  else if file = artifacts.query .minimize then ofQuery .minimize
  else ofQuery .maximize

/-- The stage of an effect of an instance. -/
def Effect.stage (artifacts : Artifacts) : Effect → Stage
  | makeDir _ => .construct
  | write file => .ofFile artifacts file
  | encode _ => .encode
  | check _ _ => .verify
  | load _ => .loadCnf
  | solve query => .ofFile artifacts query

/-- An effect that was attempted, and whether it succeeded. -/
structure JournalEntry where
  effect : Effect
  succeeded : Bool
  deriving DecidableEq

/-- The files, and the effects attempted so far. -/
structure Session where
  store : Store
  journal : List JournalEntry

/-- A pipeline run, or a part of one. -/
abbrev Run := EStateM Stop Session

/-- Performs an action and notes it. -/
def perform {α : Type} (e : Effect) (x : Action α) : Run α := fun s =>
  match x s.store with
  | .ok a store => .ok a ⟨store, s.journal ++ [⟨e, true⟩]⟩
  | .error stop store => .error stop ⟨store, s.journal ++ [⟨e, false⟩]⟩

/-! ### Stages -/

/-- An instance whose clauses were accepted. -/
structure Encoded where
  artifacts : Artifacts
  cnf : Cnf

namespace Pipeline

/-- Writes the source, encodes it, has the proof checked and loads the clauses. -/
def encode (tools : Toolchain) (artifacts : Artifacts) (strategy : Strategy) (rows : List Row) :
    Run Encoded := do
  let source := artifacts.source
  perform (.makeDir artifacts.dir) (Action.makeDir artifacts.dir)
  perform (.write source) ((Opb.ofRows rows).save source)
  let output ← perform (.encode source) (tools.encode source strategy)
  perform (.check source output.proof) (tools.check source output.proof)
  let cnf ← perform (.load output.cnf) (Cnf.load output.cnf)
  return ⟨artifacts, cnf⟩

/-- The formula of a query: the clauses as rows, every variable declared, and the objective without
its constant, which the format cannot hold. -/
def queryFormula (cnf : Cnf) (objective : LinearForm) : Checked Opb := do
  return ⟨← cnf.toRows, some objective.withoutOffset, cnf.numVars⟩

/-- Poses a query and adds the objective's constant to the answer. -/
def solve (tools : Toolchain) (encoded : Encoded) (query : Query) (objective : LinearForm) :
    Run Answer := do
  let file := encoded.artifacts.query query
  let formula ← queryFormula encoded.cnf objective
  perform (.write file) (formula.save file)
  let answer ← perform (.solve file) (tools.solve file)
  answer.shifted objective.offset

/-- The minimum of an objective over the models of the clauses. -/
def minimize (tools : Toolchain) (encoded : Encoded) (objective : Expression) : Run Answer := do
  let form ← objective.normalize
  solve tools encoded .minimize form

/-- The maximum of an objective, which is the minimum of its negation, negated. The objective is
normalized first, so a variable that occurs twice is negated once. -/
def maximize (tools : Toolchain) (encoded : Encoded) (objective : Expression) : Run Answer := do
  let form ← objective.normalize
  let answer ← solve tools encoded .maximize (← form.negate)
  answer.negated

/-- The answer to a query. -/
def answer (tools : Toolchain) (encoded : Encoded) (objective : Expression) : Query → Run Answer
  | .minimize => minimize tools encoded objective
  | .maximize => maximize tools encoded objective

end Pipeline

end PseudoBoolean
