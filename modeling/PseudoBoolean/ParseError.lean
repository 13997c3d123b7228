import PseudoBoolean.Fault

/-!
What a reader finds wrong with a text.

A `Flaw` is wrong on one line and quotes what stands there; a `ParseError` places it, or names what
is missing from the text as a whole.
-/

namespace PseudoBoolean

/-- What is wrong on one line. -/
inductive Flaw where
  | badVariableCount (word : String)
  | badCoefficient (word : String)
  | badLiteral (word : String)
  | badDegree (word : String)
  | badProblemLine (line : String)
  | badObjectiveValue (word : String)
  /-- A formula has one objective at most. -/
  | secondObjective
  /-- A row compares its terms with a degree. -/
  | missingRelation
  /-- Coefficients and literals alternate. -/
  | danglingTerm
  /-- One word follows the relation. -/
  | expectedDegree
  /-- A semicolon ends every statement. -/
  | unterminatedStatement
  deriving DecidableEq, Repr

/-- The wording of a flaw. -/
def Flaw.message : Flaw → String
  | badVariableCount word => "bad variable count `" ++ word ++ "`"
  | badCoefficient word => "bad coefficient `" ++ word ++ "`"
  | badLiteral word => "bad literal `" ++ word ++ "`"
  | badDegree word => "bad degree `" ++ word ++ "`"
  | badProblemLine line => "bad problem line `" ++ line ++ "`"
  | badObjectiveValue word => "bad objective value `" ++ word ++ "`"
  | secondObjective => "more than one objective"
  | missingRelation => "constraint without relation"
  | danglingTerm => "dangling coefficient or literal"
  | expectedDegree => "expected a single degree after relation"
  | unterminatedStatement => "statement not terminated by `;`"

/-- Why a text was refused. -/
inductive ParseError where
  /-- A flaw on a line, counted from one. -/
  | onLine (line : Nat) (flaw : Flaw)
  /-- Literals after the last clause end. -/
  | unterminatedClause (codes : List Int32)
  | unknownStatus (word : String)
  | missingStatus
  deriving DecidableEq

/-- The wording of a refusal. -/
def ParseError.message : ParseError → String
  | onLine line flaw => "line " ++ toString line ++ ": " ++ flaw.message
  | unterminatedClause codes =>
    "unterminated clause at end of input: [" ++
      ", ".intercalate (codes.map fun code => toString code.toInt) ++ "]"
  | unknownStatus word => "unknown solver status `" ++ word ++ "`"
  | missingStatus => "solver output has no status line"

/-- Why reading a text ended without a result: the text is refused, or its numbers overflow. -/
inductive ReadError where
  | parse (error : ParseError)
  | fault (fault : Fault)
  deriving DecidableEq

/-- A reading of a text whose numbers are computed with. -/
abbrev Reading := Except ReadError

instance : MonadLift Checked Reading where
  monadLift x := x.mapError .fault

instance : MonadLift (Except ParseError) Reading where
  monadLift x := x.mapError .parse

end PseudoBoolean
