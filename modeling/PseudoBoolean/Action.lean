import PseudoBoolean.PipelineError
import PseudoBoolean.Store
import PseudoBoolean.Opb.Reader
import PseudoBoolean.Cnf.Dimacs

/-!
Actions on files.

An action works on a store and may stop; what it changed before it stopped stays changed. Text is
read as strict UTF-8: a file that is not valid text cannot be read.
-/

namespace PseudoBoolean

/-- A computation on files that may stop. -/
abbrev Action := EStateM Stop Store

/-- The value of a checked computation, its fault as a stop. -/
def Checked.toAction {σ α : Type} (x : Checked α) : EStateM Stop σ α := fun s =>
  match x with
  | .ok a => .ok a s
  | .error f => .error (.fault f) s

instance {σ : Type} : MonadLift Checked (EStateM Stop σ) := ⟨Checked.toAction⟩

namespace Action

/-- Ends an action with the error of a stage. -/
def fail {α : Type} (e : PipelineError) : Action α := throw (.error e)

/-- The text of a file. -/
def readText (p : Path) : Action String := fun s =>
  match (s.read p).bind String.fromUTF8? with
  | some text => .ok text s
  | none => .error (.error (.io p)) s

/-- Writes a file. -/
def writeFile (p : Path) (content : ByteArray) : Action Unit := fun s =>
  match s.write p content with
  | some s => .ok () s
  | none => .error (.error (.io p)) s

/-- Writes a file's text. -/
def writeText (p : Path) (text : String) : Action Unit := writeFile p text.toUTF8

/-- Makes a directory, and those above it. -/
def makeDir (p : Path) : Action Unit := fun s =>
  match s.makeDir p with
  | some s => .ok () s
  | none => .error (.error (.io p)) s

end Action

/-- Writes a formula to a file. -/
def Opb.save (f : Opb) (p : Path) : Action Unit := Action.writeText p f.render

/-- The formula in a file. -/
def Opb.load (p : Path) : Action Opb := do
  match Opb.parse (← Action.readText p) with
  | .ok f => return f
  | .error (.parse e) => Action.fail (.parse p e)
  | .error (.fault f) => throw (.fault f)

/-- Writes clauses to a file. -/
def Cnf.save (f : Cnf) (p : Path) : Action Unit := Action.writeText p f.render

/-- The clauses in a file. -/
def Cnf.load (p : Path) : Action Cnf := do
  match Cnf.parse (← Action.readText p) with
  | .ok f => return f
  | .error e => Action.fail (.parse p e)

end PseudoBoolean
