import PseudoBoolean.Toolchain.Exhaustive
import PseudoBoolean.Toolchain.Process

/-!
Tools that misbehave on purpose.

A harness is only worth its verdicts if it notices a wrong tool. Each script here is one way to be
wrong, or an answer fixed beforehand. A script may be restricted to the instances whose file name
holds a mark; on the others the tool does what a sound one would.
-/

namespace PseudoBoolean.Scripted

/-- The program name in the failures of a script. -/
def program : String := "stub"

/-- Ends an action with a fault of the tool's own. -/
def raise {α : Type} (message : String) : Action α := throw (.fault (.raised message))

/-! ### Tools -/

/-- Encodes, then loses the last clause. -/
def lossyEncoder : Encoder := fun source strategy => do
  let output ← Exhaustive.encode source strategy
  let cnf ← Cnf.load output.cnf
  Cnf.save { cnf with clauses := cnf.clauses.dropLast } output.cnf
  return output

/-- Leaves given contents beside the source, where there are any. -/
def leavingEncoder (cnf proof : Option ByteArray) : Encoder := fun source _ => do
  let output := EncoderOutput.beside source
  if let some content := cnf then Action.writeFile output.cnf content
  if let some content := proof then Action.writeFile output.proof content
  return output

def failingEncoder (code : Option Int32) : Encoder := fun source _ =>
  Action.fail (.encoderFailure program source code)

/-- Accepts every proof. -/
def trustingChecker : Checker := fun _ _ => return ()

def rejectingChecker (reason : String) : Checker := fun source proof =>
  Action.fail (.verificationFailure source proof reason)

/-- Reports the same output on every query. -/
def cannedSolver (output : String) : Solver := fun source =>
  match Answer.parse output with
  | .ok answer => return answer
  | .error e => Action.fail (.parse source e)

def failingSolver (code : Option Int32) : Solver := fun source =>
  Action.fail (.solverFailure program source code)

/-! ### Restriction to some instances -/

/-- Whether the file name of a path holds a mark. -/
def isMarked (mark : String) (p : Path) : Bool :=
  match p.fileName? with
  | some name => (Text.cut? mark.toList name.toList).isSome
  | none => false

def onlyFor {α : Type} (mark : String) (tool otherwise : Path → α) : Path → α := fun p =>
  if isMarked mark p then tool p else otherwise p

/-- An encoder for marked instances; the others are encoded by enumeration. -/
def encoderFor (mark : String) (e : Encoder) : Encoder := onlyFor mark e Exhaustive.encode

/-- A checker for marked instances; the others are accepted. -/
def checkerFor (mark : String) (c : Checker) : Checker := onlyFor mark c trustingChecker

/-- A solver for marked instances; the others are solved by enumeration. -/
def solverFor (mark : String) (s : Solver) : Solver := onlyFor mark s Exhaustive.solve

/-! ### Programs -/

/-- A program that prints and ends as it was told. -/
structure Script where
  program : Path
  ended : Ended

/-- The exit code of a program that ends with a number: the low eight bits of it. -/
def exitCode (n : Int32) : Int32 := n &&& 0xFF

/-- Where a script notes the arguments of its last run. -/
def notesOf (program : Path) : Path := program.withExtension "args"

/-- Arguments, each ended by a NUL, which none of them holds. -/
def noteText (args : List String) : String := String.join (args.map (· ++ "\x00"))

/-- The script that a program's path leads to. A bare name is not looked for in the working
directory. -/
def scriptAt? (scripts : List Script) (program : Path) (s : Store) : Option Script :=
  if program.text.toList.contains '/' then
    (s.resolve program).bind fun loc =>
      scripts.find? fun script => s.resolve script.program == some loc
  else none

/-- The programs that are scripts. A script leaves every file as it is but its notes. -/
def programs (scripts : List Script) : Programs := fun program args s =>
  match scriptAt? scripts program s with
  | some script =>
    (some script.ended, (s.write (notesOf script.program) (noteText args).toUTF8).getD s)
  | none => (none, s)

/-- The arguments that a script noted, if it ran. -/
def noted? (s : Store) (program : Path) : Option (List String) :=
  ((s.read (notesOf program)).bind String.fromUTF8?).map fun text =>
    (text.toList.splitOn '\x00').dropLast.map String.ofList

end PseudoBoolean.Scripted
