import PseudoBoolean.Cnf.Basic
import PseudoBoolean.ParseError

/-!
The DIMACS text of a formula.

    c a comment
    p cnf 5 3
    1 2 -4 0
    -1 5 0 3
    0

Comments and the problem line are optional, and a line that begins with a percent sign ends the
text. The other lines are one stream of numbers in which a zero ends a clause, so a clause may span
lines.
-/

namespace PseudoBoolean.Cnf

/-- The words of a clause: its literals and the zero that ends it. -/
def clauseWords (clause : Clause) : List String :=
  clause.map (fun l => Decimal.ofInt l.code.toInt) ++ ["0"]

/-- The words of the problem line. -/
def problemWords (f : Cnf) : List String :=
  ["p", "cnf", toString f.numVars.toNat, toString f.clauses.length]

/-- The text of a formula: the problem line, then one line for each clause. -/
def render (f : Cnf) : String :=
  String.join ((f.problemWords :: f.clauses.map clauseWords).map fun words =>
    Text.joinWords words ++ "\n")

/-! ### Reading -/

/-- What has been read: the closed clauses and the open one, each latest first, and the count of the
last problem line. -/
structure Progress where
  closed : List Clause
  pending : Clause
  declared : UInt32

/-- Reads one number: a zero closes the clause, another one extends it. -/
def Progress.word (line : Nat) (p : Progress) (word : String) : Except ParseError Progress :=
  match Decimal.int32? word with
  | none => .error (.onLine line (.badLiteral word))
  | some code =>
    if h : code = 0 then .ok { p with closed := p.pending.reverse :: p.closed, pending := [] }
    else .ok { p with pending := ⟨code, h⟩ :: p.pending }

/-- The variable count of a problem line. -/
def readProblem (number : Nat) (line : String) : Except ParseError UInt32 :=
  match Text.words line with
  | ["p", "cnf", vars, _] =>
    match Decimal.uint32? vars with
    | some count => .ok count
    | none => .error (.onLine number (.badVariableCount vars))
  | _ => .error (.onLine number (.badProblemLine line))

/-- Reads one numbered line. -/
def Progress.line (p : Progress) : Nat × String → Except ParseError Progress
  | (number, line) =>
    match line.toList.head? with
    | some 'c' => .ok p
    | some 'p' => do return { p with declared := ← readProblem number line }
    | _ => (Text.words line).foldlM (Progress.word number) p

/-- The lines that count: trimmed, up to one that begins with a percent sign. -/
def contentLines (text : String) : List (Nat × String) :=
  ((Text.numberedLines text).map fun (number, line) => (number, Text.trim line)).takeWhile
    fun (_, line) => line.toList.head? ≠ some '%'

/-- The formula of a text. -/
def parse (text : String) : Except ParseError Cnf := do
  let p ← (contentLines text).foldlM Progress.line ⟨[], [], 0⟩
  if p.pending = [] then return ⟨p.closed.reverse, p.declared⟩
  else .error (.unterminatedClause (p.pending.reverse.map (·.code)))

end PseudoBoolean.Cnf
