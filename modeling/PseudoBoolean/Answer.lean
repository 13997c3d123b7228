import PseudoBoolean.ParseError
import PseudoBoolean.Word
import PseudoBoolean.Text.Line
import PseudoBoolean.Text.Decimal

/-!
What a solver reports: a status, and the best objective value it has found.

    c a comment
    o 7
    o 5
    s OPTIMUM FOUND

The last `o` line and the last `s` line count. A line with any other first word is ignored.
-/

namespace PseudoBoolean

/-- How a solver run ended. -/
inductive Status where
  | optimum
  | satisfiable
  | unsatisfiable
  deriving DecidableEq

namespace Status

/-- The word that stands for a status. -/
def text : Status → String
  | optimum => "OPTIMUM"
  | satisfiable => "SATISFIABLE"
  | unsatisfiable => "UNSATISFIABLE"

/-- The status that a word stands for. -/
def ofWord (word : String) : Except ParseError Status :=
  match word with
  | "OPTIMUM" => .ok optimum
  | "SATISFIABLE" => .ok satisfiable
  | "UNSATISFIABLE" => .ok unsatisfiable
  | _ => .error (.unknownStatus word)

end Status

/-- A status with the objective value, if one was reported. -/
structure Answer where
  status : Status
  value : Option Int64
  deriving DecidableEq

namespace Answer

def optimum (value : Int64) : Answer := ⟨.optimum, some value⟩

def unsatisfiable : Answer := ⟨.unsatisfiable, none⟩

/-- What the lines read so far report. -/
structure Progress where
  status : Option Status
  value : Option Int64

/-- Reads one numbered line. -/
def Progress.line (p : Progress) : Nat × String → Except ParseError Progress
  | (number, line) =>
    match Text.words line with
    | "o" :: rest =>
      let word := rest.headD ""
      match Decimal.int64? word with
      | some value => .ok { p with value := some value }
      | none => .error (.onLine number (.badObjectiveValue word))
    | "s" :: rest => do return { p with status := some (← Status.ofWord (rest.headD "")) }
    | _ => .ok p

/-- The answer of a solver's output. -/
def parse (output : String) : Except ParseError Answer := do
  let p ← (Text.numberedLines output).foldlM Progress.line ⟨none, none⟩
  match p.status with
  | some status => return ⟨status, p.value⟩
  | none => .error .missingStatus

/-- The answer with its value changed. -/
def mapValue (a : Answer) (f : Int64 → Checked Int64) : Checked Answer := do
  return { a with value := ← a.value.mapM f }

/-- The answer with a constant added to its value. -/
def shifted (a : Answer) (offset : Int64) : Checked Answer := a.mapValue (Word.add · offset)

/-- The answer with its value negated, which turns the minimum of `-f` into the maximum of `f`. -/
def negated (a : Answer) : Checked Answer := a.mapValue Word.neg

/-- The text of an answer. -/
def text (a : Answer) : String :=
  match a.value with
  | some value => a.status.text ++ " (" ++ Decimal.ofInt value.toInt ++ ")"
  | none => a.status.text

end Answer

end PseudoBoolean
