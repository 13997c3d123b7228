import PseudoBoolean.Toolchain.Basic
import PseudoBoolean.Toolchain.Config
import PseudoBoolean.Text.Utf8

/-!
Tools that run programs.

What the programs of a system do is data: `Programs` says how a program that is given some arguments
ends, and what it leaves in the files. The tools add the protocol: the arguments, the exit codes
that count as success, and how an answer is read.
-/

namespace PseudoBoolean

/-- How a program ended and what it printed. A signal leaves no exit code. -/
structure Ended where
  code : Option Int32
  stdout : ByteArray
  stderr : ByteArray

/-- What the programs of a system do with their arguments and the files. `none` stands for a program
that cannot be started. -/
abbrev Programs := Path → List String → Store → Option Ended × Store

/-- The last line of a text that is not blank, trimmed. -/
def lastLine? (bytes : ByteArray) : Option String :=
  ((Text.lines (Utf8.decodeLossy bytes)).map Text.trim).reverse.find? (· ≠ "")

/-- What a program had to say at last: on standard error, else on standard output, else how it
ended. -/
def Ended.lastWords (e : Ended) : String :=
  match lastLine? e.stderr, lastLine? e.stdout, e.code with
  | some line, _, _ => line
  | none, some line, _ => line
  | none, none, some code => "exit code " ++ Decimal.ofInt code.toInt
  | none, none, none => "terminated by signal"

namespace Programs

/-- The longest argument of a program, in bytes. -/
def maxArgument : Nat := 131071

/-- Whether text can be handed to a program: it holds no NUL and is not too long. -/
def isArgument (text : String) : Bool := Store.isPlain text && text.utf8ByteSize ≤ maxArgument

/-- Runs a program, unless it or an argument cannot be handed to the system. -/
def launch (programs : Programs) (program : Path) (args : List String) : Action Ended := fun s =>
  if (program.text :: args).all isArgument then
    match programs program args s with
    | (some ended, s) => .ok ended s
    | (none, s) => .error (.error (.launch program.text)) s
  else .error (.error (.launch program.text)) s

/-- The arguments of an encoder run. -/
def encoderArgs (source : Path) (strategy : Strategy) : List String :=
  ["-card=" ++ strategy.cardinality.flag, "-pb=" ++ strategy.pb.flag, "-verified", source.text]

/-- Runs an encoder, which succeeds with one exit code and leaves its output beside the source. -/
def encoder (programs : Programs) (program : Path) (success : Int32) : Encoder :=
  fun source strategy => do
    let ended ← programs.launch program (encoderArgs source strategy)
    if ended.code = some success then return EncoderOutput.beside source
    else Action.fail (.encoderFailure program.text source ended.code)

/-- Runs a checker, which accepts with exit code zero. -/
def checker (programs : Programs) (program : Path) : Checker := fun source proof => do
  let ended ← programs.launch program [source.text, proof.text]
  if ended.code = some 0 then return ()
  else Action.fail (.verificationFailure source proof ended.lastWords)

/-- Runs a solver, which ends with one of two exit codes and prints its answer. -/
def solver (programs : Programs) (program : Path) (codes : SolverCodes) : Solver := fun source => do
  let ended ← programs.launch program [source.text]
  if ended.code.any codes.isTerminal then
    match Answer.parse (Utf8.decodeLossy ended.stdout) with
    | .ok answer => return answer
    | .error e => Action.fail (.parse source e)
  else Action.fail (.solverFailure program.text source ended.code)

/-- The tools of a configuration. -/
def toolchain (programs : Programs) (config : ToolchainConfig) : Toolchain where
  encode := programs.encoder config.encoder config.encoderSuccess
  check := programs.checker config.checker
  solve := programs.solver config.solver config.solverCodes

end Programs

end PseudoBoolean
