import PseudoBoolean.Action
import PseudoBoolean.Answer

/-!
The three tools of a pipeline run.

An encoder turns an OPB file into clauses and a proof, a checker decides whether the proof certifies
them, and a solver minimizes the objective of an OPB file. Each is an action on files and nothing
else, so any behaviour of a real tool is one of these functions.
-/

namespace PseudoBoolean

/-- How cardinality constraints become clauses. -/
inductive CardinalityEncoding where
  | totalizer
  | sequentialCounter
  deriving DecidableEq

/-- How general constraints become clauses. -/
inductive PbEncoding where
  | generalizedTotalizer
  | adder
  deriving DecidableEq

namespace CardinalityEncoding

def text : CardinalityEncoding → String
  | totalizer => "Totalizer"
  | sequentialCounter => "SequentialCounter"

/-- The value of the encoder's option for cardinality constraints. -/
def flag : CardinalityEncoding → String
  | sequentialCounter => "0"
  | totalizer => "1"

end CardinalityEncoding

namespace PbEncoding

def text : PbEncoding → String
  | generalizedTotalizer => "GeneralizedTotalizer"
  | adder => "Adder"

/-- The value of the encoder's option for general constraints. -/
def flag : PbEncoding → String
  | generalizedTotalizer => "0"
  | adder => "1"

end PbEncoding

/-- The encodings of a run. -/
structure Strategy where
  cardinality : CardinalityEncoding
  pb : PbEncoding
  deriving DecidableEq

namespace Strategy

/-- The strategy of a run that names none. -/
def standard : Strategy := ⟨.totalizer, .generalizedTotalizer⟩

def text (s : Strategy) : String := s.cardinality.text ++ "/" ++ s.pb.text

end Strategy

/-- The files that an encoder leaves. -/
structure EncoderOutput where
  cnf : Path
  proof : Path
  deriving DecidableEq

/-- Clauses and proof beside a source, under its name. -/
def EncoderOutput.beside (source : Path) : EncoderOutput :=
  ⟨source.withExtension "cnf", source.withExtension "pbp"⟩

/-- Whether two outputs name the same files. -/
def EncoderOutput.same (o p : EncoderOutput) : Bool := o.cnf.same p.cnf && o.proof.same p.proof

/-- Encodes the OPB file at a path. -/
abbrev Encoder := Path → Strategy → Action EncoderOutput

/-- Accepts a proof for the OPB file at a path, or stops. -/
abbrev Checker := Path → Path → Action Unit

/-- Minimizes the objective of the OPB file at a path. -/
abbrev Solver := Path → Action Answer

/-- The tools of a run. -/
structure Toolchain where
  encode : Encoder
  check : Checker
  solve : Solver

end PseudoBoolean
