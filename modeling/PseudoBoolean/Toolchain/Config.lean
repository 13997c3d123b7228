import PseudoBoolean.Path

/-!
Where the programs of a toolchain are, and the exit codes that end them normally.
-/

namespace PseudoBoolean

/-- The exit codes that end a solver run normally. -/
structure SolverCodes where
  optimum : Int32
  unsatisfiable : Int32
  deriving DecidableEq

namespace SolverCodes

def standard : SolverCodes := ⟨30, 20⟩

/-- Whether a code ends a run normally. -/
def isTerminal (codes : SolverCodes) (code : Int32) : Bool :=
  code == codes.optimum || code == codes.unsatisfiable

end SolverCodes

/-- The programs of a toolchain and what their exit codes mean. -/
structure ToolchainConfig where
  encoder : Path
  checker : Path
  solver : Path
  encoderSuccess : Int32
  solverCodes : SolverCodes
  deriving DecidableEq

namespace ToolchainConfig

def standard : ToolchainConfig where
  encoder := ⟨"veritaspblib"⟩
  checker := ⟨"veripb"⟩
  solver := ⟨"roundingsat"⟩
  encoderSuccess := 0
  solverCodes := SolverCodes.standard

/-- The variables of the environment that name the programs. -/
def encoderVar : String := "PBDIFF_ENCODER"

def checkerVar : String := "PBDIFF_CHECKER"

def solverVar : String := "PBDIFF_SOLVER"

/-- The standard configuration, with each program replaced that the environment names. -/
def ofEnvironment (lookup : String → Option String) : ToolchainConfig where
  encoder := ((lookup encoderVar).map Path.mk).getD standard.encoder
  checker := ((lookup checkerVar).map Path.mk).getD standard.checker
  solver := ((lookup solverVar).map Path.mk).getD standard.solver
  encoderSuccess := standard.encoderSuccess
  solverCodes := standard.solverCodes

end ToolchainConfig

end PseudoBoolean
