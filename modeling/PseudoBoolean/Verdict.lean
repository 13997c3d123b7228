import PseudoBoolean.Pipeline
import PseudoBoolean.Instance.Basic

/-!
Verdicts: what the pipeline answered against what the oracle expects.

An instance passes if every answer is the expected one, fails if the pipeline was sound and some
answer differs, and is aborted if a stage broke. A fault of a tool, of the oracle or of the
arithmetic aborts its own instance and no other.
-/

namespace PseudoBoolean

/-! ### Expectations -/

/-- What a solver must report. -/
inductive Expectation where
  | optimum (value : Int64)
  | infeasible
  deriving DecidableEq

namespace Expectation

def ofOption : Option Int64 → Expectation
  | some value => optimum value
  | none => infeasible

def status : Expectation → Status
  | optimum _ => .optimum
  | infeasible => .unsatisfiable

def value : Expectation → Option Int64
  | optimum value => some value
  | infeasible => none

end Expectation

/-- The part of an answer that differs. -/
inductive Field where
  | status
  | value
  deriving DecidableEq

def Field.text : Field → String
  | status => "status"
  | value => "value"

/-- One difference between an answer and the expected one, both sides as text. -/
structure Mismatch where
  query : Query
  field : Field
  expected : String
  actual : String
  deriving DecidableEq

def Mismatch.text (m : Mismatch) : String :=
  m.query.text ++ " " ++ m.field.text ++ ": expected " ++ m.expected ++ ", got " ++ m.actual

/-- The text of an objective value. -/
def valueText : Option Int64 → String
  | some value => Decimal.ofInt value.toInt
  | none => "none"

/-- What differs between an answer and the expected one, the status first. -/
def mismatches (query : Query) (expected : Expectation) (answer : Answer) : List Mismatch :=
  (if answer.status = expected.status then []
    else [⟨query, .status, expected.status.text, answer.status.text⟩]) ++
  (if answer.value = expected.value then []
    else [⟨query, .value, valueText expected.value, valueText answer.value⟩])

/-- The text of a failed instance: its name and what differs. -/
def failureText (name : String) (found : List Mismatch) : String :=
  name ++ ": " ++ "; ".intercalate (found.map Mismatch.text)

/-! ### Reports -/

/-- How an instance ended. -/
inductive Outcome where
  | passed
  | failed (found : List Mismatch)
  | aborted (error : PipelineError)
  deriving DecidableEq

/-- An instance, its files if its name is valid, and how it ended. -/
structure Report where
  name : String
  artifacts : Option Artifacts
  outcome : Outcome
  deriving DecidableEq

namespace Report

def isPassed (r : Report) : Bool :=
  match r.outcome with
  | .passed => true
  | _ => false

/-- Where to look for the files of an instance. -/
def whereText (r : Report) : String :=
  match r.artifacts with
  | some artifacts => " (artifacts in " ++ artifacts.dir.text ++ ")"
  | none => ""

/-- The text of a report. -/
def text (r : Report) : String :=
  match r.outcome with
  | .passed => "PASS " ++ r.name
  | .failed found => "FAIL " ++ failureText r.name found ++ r.whereText
  | .aborted error => "ERROR " ++ r.name ++ ": " ++ error.fullMessage ++ r.whereText

end Report

/-! ### Running an instance -/

/-- Where artifacts go, and on how many workers a suite runs. -/
structure HarnessConfig where
  generationDir : Path
  jobs : Nat

/-- The directory that artifacts go to where none is named. -/
def HarnessConfig.standardDir : Path := ⟨"generated"⟩

/-- What differs in the answer to one query, the expected one computed after the answer. -/
def checkQuery (tools : Toolchain) (encoded : Encoded) (i : Instance) (query : Query) :
    Run (List Mismatch) := do
  let answer ← Pipeline.answer tools encoded i.objective query
  let expected ← i.expected query
  return mismatches query (.ofOption expected) answer

/-- Everything that differs in an instance. One that the oracle cannot check is refused first. -/
def checkInstance (tools : Toolchain) (artifacts : Artifacts) (strategy : Strategy) (i : Instance) :
    Run (List Mismatch) := do
  let vars ← i.oracleVars
  if maxEnumerated < vars then throw (.error (.oracleTooLarge vars maxEnumerated))
  let rows ← i.rows
  let encoded ← Pipeline.encode tools artifacts strategy rows
  return (← i.queries.mapM (checkQuery tools encoded i)).flatten

/-- The outcome of a run that is over. -/
def Outcome.ofRun : EStateM.Result Stop Session (List Mismatch) → Outcome × Session
  | .ok [] s => (passed, s)
  | .ok found s => (failed found, s)
  | .error stop s => (aborted stop.report, s)

/-- Runs the pipeline on an instance and compares every answer. -/
def runInstance (tools : Toolchain) (root : Path) (strategy : Strategy) (i : Instance)
    (s : Session) : Report × Session :=
  match Artifacts.ofName root i.name with
  | .error e => (⟨i.name, none, .aborted e⟩, s)
  | .ok artifacts =>
    let (outcome, s) := Outcome.ofRun (checkInstance tools artifacts strategy i s)
    (⟨i.name, some artifacts, outcome⟩, s)

/-! ### Summary -/

/-- How many instances passed, failed and were aborted. -/
structure Summary where
  passed : Nat
  failed : Nat
  aborted : Nat
  deriving DecidableEq

namespace Summary

/-- Counts one more outcome. -/
def add (s : Summary) : Outcome → Summary
  | .passed => { s with passed := s.passed + 1 }
  | .failed _ => { s with failed := s.failed + 1 }
  | .aborted _ => { s with aborted := s.aborted + 1 }

/-- The counts of some reports. -/
def ofReports (reports : List Report) : Summary :=
  reports.foldl (fun s r => s.add r.outcome) ⟨0, 0, 0⟩

def isSuccess (s : Summary) : Bool := s.failed == 0 && s.aborted == 0

def text (s : Summary) : String :=
  toString s.passed ++ " passed, " ++ toString s.failed ++ " failed, " ++ toString s.aborted ++
    " aborted"

end Summary

end PseudoBoolean
