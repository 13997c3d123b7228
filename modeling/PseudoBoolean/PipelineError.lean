import PseudoBoolean.ParseError
import PseudoBoolean.Path
import PseudoBoolean.Text.Decimal

/-!
Why a pipeline run ended early.

A stage breaks with a `PipelineError`. A fault inside a stage stops the run as well, and is reported
as an error of its own kind once the run is over.
-/

namespace PseudoBoolean

/-- The failure of one pipeline stage. -/
inductive PipelineError where
  /-- The encoder ended with a code that is not its success code; no code if a signal ended it. -/
  | encoderFailure (program : String) (input : Path) (code : Option Int32)
  | verificationFailure (source proof : Path) (reason : String)
  /-- The solver ended with a code that is none of its two. -/
  | solverFailure (program : String) (input : Path) (code : Option Int32)
  /-- The program could not be started. -/
  | launch (program : String)
  /-- A file or directory could not be read or written. -/
  | io (path : Path)
  | parse (path : Path) (error : ParseError)
  | invalidTestName (name : String)
  | oracleTooLarge (vars max : Nat)
  /-- A stage ended in a fault. -/
  | faulted (message : String)
  deriving DecidableEq

/-- How a program ended. -/
def exitText : Option Int32 → String
  | some code => "code " ++ Decimal.ofInt code.toInt
  | none => "no code (terminated by signal)"

namespace PipelineError

/-- The wording of a failure. -/
def message : PipelineError → String
  | encoderFailure program input code =>
    "encoder `" ++ program ++ "` on `" ++ input.text ++ "` exited with " ++ exitText code
  | verificationFailure source proof reason =>
    "proof `" ++ proof.text ++ "` rejected for `" ++ source.text ++ "`: " ++ reason
  | solverFailure program input code =>
    "solver `" ++ program ++ "` on `" ++ input.text ++ "` exited with " ++ exitText code
  | launch program => "could not launch `" ++ program ++ "`"
  | io path => "I/O error on `" ++ path.text ++ "`"
  | parse path _ => "failed to parse `" ++ path.text ++ "`"
  | invalidTestName name => (Fault.invalidTestName name).message
  | oracleTooLarge vars max =>
    "instance has " ++ toString vars ++ " variables, the oracle enumerates at most " ++ toString max
  | faulted message => "panicked: " ++ message

/-- The refusal behind a failure to parse. -/
def cause? : PipelineError → Option ParseError
  | parse _ error => some error
  | _ => none

/-- The wording of a failure followed by that of its cause. -/
def fullMessage (e : PipelineError) : String :=
  ": ".intercalate (e.message :: e.cause?.toList.map ParseError.message)

end PipelineError

/-- What stops a run: the error of a stage, or a fault. -/
inductive Stop where
  | error (error : PipelineError)
  | fault (fault : Fault)
  deriving DecidableEq

/-- The error that reports what stopped a run. -/
def Stop.report : Stop → PipelineError
  | error e => e
  | fault f => .faulted f.message

end PseudoBoolean
