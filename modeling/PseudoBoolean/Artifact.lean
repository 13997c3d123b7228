import PseudoBoolean.PipelineError
import PseudoBoolean.Toolchain.Basic

/-!
The files of one instance.

Every file of the instance `T` under the root `R` stands in `R/T/` and is named after it:

| file            | role               |
|-----------------|--------------------|
| `T.opb`         | source constraints |
| `T.pbp`         | proof              |
| `T.cnf`         | clauses            |
| `T.min.opt.opb` | minimization query |
| `T.max.opt.opb` | maximization query |
-/

namespace PseudoBoolean

/-- Which optimum a query asks for. -/
inductive Query where
  | minimize
  | maximize
  deriving DecidableEq

def Query.text : Query → String
  | minimize => "minimize"
  | maximize => "maximize"

/-- The directory of an instance and its name. -/
structure Artifacts where
  dir : Path
  testName : String
  deriving DecidableEq

namespace Artifacts

/-- Whether a name can name a directory and files in it: it is not empty and holds no separator. -/
def isValidName (name : String) : Bool :=
  name ≠ "" && !name.toList.contains '/' && !name.toList.contains '\\'

/-- The files of a name under a root, if the name is valid. -/
def ofName (root : Path) (name : String) : Except PipelineError Artifacts :=
  if isValidName name then .ok ⟨root.join name, name⟩ else .error (.invalidTestName name)

/-- The files of a name that is known to be valid. -/
def ofValidName (root : Path) (name : String) : Checked Artifacts :=
  (ofName root name).mapError fun _ => .invalidTestName name

/-- The file of a role. -/
def file (a : Artifacts) (role : String) : Path := a.dir.join (a.testName ++ "." ++ role)

def source (a : Artifacts) : Path := a.file "opb"

def proof (a : Artifacts) : Path := a.file "pbp"

def cnf (a : Artifacts) : Path := a.file "cnf"

/-- The file of a query. -/
def query (a : Artifacts) : Query → Path
  | .minimize => a.file "min.opt.opb"
  | .maximize => a.file "max.opt.opb"

/-- Where an encoder leaves its output. -/
def encoderOutput (a : Artifacts) : EncoderOutput := ⟨a.cnf, a.proof⟩

end Artifacts

end PseudoBoolean
