import PseudoBoolean.Opb.Basic
import PseudoBoolean.ParseError

/-!
Reading OPB text.

A line that begins with a star is a comment, and may declare a variable count. The other lines are
one stream of words in which a semicolon ends a statement, so a statement may span lines. A flaw is
reported on the line of the word that shows it.

A number that is well written but leaves its word while the statement is normalized is a fault.
-/

namespace PseudoBoolean.Opb

/-- A word and the number of its line. -/
structure Token where
  line : Nat
  text : String
  deriving DecidableEq

/-- A refusal on the line of a token. -/
def Token.refuse {α : Type} (t : Token) (flaw : Flaw) : Except ParseError α :=
  .error (.onLine t.line flaw)

/-! ### Lines -/

/-- The variable count that a comment declares after its first mark, if it has the mark. -/
def declaredCount? (line : Nat) (comment : String) : Except ParseError (Option UInt32) :=
  let mark := "#variable=".toList
  match Text.cut? mark comment.toList with
  | none => .ok none
  | some (_, rest) =>
    let field := ((Text.cut? mark rest).map (·.1)).getD rest
    let word := Text.firstWord (String.ofList field)
    match Decimal.uint32? word with
    | some count => .ok (some count)
    | none => .error (.onLine line (.badVariableCount word))

/-- The words of a line, every semicolon a word of its own. -/
def lineWords (line : String) : List String :=
  Text.words (String.ofList (line.toList.flatMap fun c => if c = ';' then [' ', ';', ' '] else [c]))

/-- What a line holds. -/
inductive Line where
  | comment (declared : Option UInt32)
  | content (tokens : List Token)

def Line.declared? : Line → Option UInt32
  | comment declared => declared
  | content _ => none

def Line.tokens : Line → List Token
  | comment _ => []
  | content tokens => tokens

/-- Reads one numbered line. -/
def readLine : Nat × String → Except ParseError Line
  | (number, text) =>
    let text := Text.trim text
    match text.toList with
    | '*' :: comment => .comment <$> declaredCount? number (String.ofList comment)
    | _ => return .content ((lineWords text).map (Token.mk number))

/-- The lines of a text, each read. -/
def readLines (text : String) : Except ParseError (List Line) :=
  (Text.numberedLines text).mapM readLine

/-! ### Statements -/

/-- The literal that a token stands for, a flaw reported on the line of its coefficient. -/
def readLit (coeff literal : Token) : Reading Lit := do
  let (negated, name) := match literal.text.toList with
    | '~' :: name => (true, name)
    | name => (false, name)
  let id? := match name with
    | 'x' :: digits => Decimal.uint32? (String.ofList digits)
    | _ => none
  match id?.bind fun id => Var.ofNat? id.toNat with
  | some v => if negated then v.neg else return v.pos
  | none => coeff.refuse (.badLiteral literal.text)

/-- The terms of alternating coefficients and literals. -/
def readPairs : List Token → Reading (List Term)
  | coeff :: literal :: rest => do
    match Decimal.int64? coeff.text with
    | none => coeff.refuse (.badCoefficient coeff.text)
    | some c =>
      let term := ⟨c, ← readLit coeff literal⟩
      return term :: (← readPairs rest)
  | _ => return []

/-- The terms of a token list, which must pair up. -/
def readTerms (tokens : List Token) : Reading (List Term) :=
  match tokens.getLast? with
  | some last => if tokens.length % 2 = 0 then readPairs tokens else last.refuse .danglingTerm
  | none => return []

/-- The constraint signs of the format. -/
inductive Sign where
  | geq
  | eq
  | leq

/-- The constraint sign that a word is. -/
def Sign.ofWord? : String → Option Sign
  | ">=" => some .geq
  | "=" => some .eq
  | "<=" => some .leq
  | _ => none

/-- The constraint of an expression, a sign and a degree. -/
def Sign.constrain : Sign → Expression → Int64 → Checked Constraint
  | geq, e, degree => .ok (e.geq degree)
  | eq, e, degree => .ok (e.equals degree)
  | leq, e, degree => e.leq degree

/-- The degree after the relation at `relation`: one word, no more. -/
def readDegree (relation : Token) : List Token → Reading Int64
  | [token] =>
    match Decimal.int64? token.text with
    | some degree => return degree
    | none => token.refuse (.badDegree token.text)
  | _ => relation.refuse .expectedDegree

/-- The row of a statement that begins with `first`. -/
def readRow (first : Token) (statement : List Token) : Reading Row := do
  let isTerm (t : Token) := (Sign.ofWord? t.text).isNone
  match statement.dropWhile isTerm with
  | [] => first.refuse .missingRelation
  | relation :: rest =>
    let terms ← readTerms (statement.takeWhile isTerm)
    let degree ← readDegree relation rest
    match Sign.ofWord? relation.text with
    | none => first.refuse .missingRelation
    | some sign =>
      let constraint ← sign.constrain (.raw terms) degree
      constraint.normalize

/-- What a statement that is not empty says. -/
inductive Statement where
  | objective (form : LinearForm)
  | row (row : Row)

def Statement.objective? : Statement → Option LinearForm
  | objective form => some form
  | row _ => none

def Statement.row? : Statement → Option Row
  | objective _ => none
  | row r => some r

/-- Reads statements in order, once an objective has been seen or before. -/
def readStatements (hasObjective : Bool) : List (List Token) → Reading (List Statement)
  | [] => return []
  | [] :: rest => readStatements hasObjective rest
  | (first :: words) :: rest => do
    if first.text = "min:" then
      if hasObjective then first.refuse .secondObjective
      else
        let terms ← readTerms words
        let form ← (Expression.raw terms).normalize
        return .objective form :: (← readStatements true rest)
    else
      let row ← readRow first (first :: words)
      return .row row :: (← readStatements hasObjective rest)

/-- The formula of statements and a declared count. -/
def ofStatements (statements : List Statement) (declared : UInt32) : Opb where
  rows := statements.filterMap Statement.row?
  objective := statements.findSome? Statement.objective?
  minVars := declared

/-- The formula of a text. -/
def parse (text : String) : Reading Opb := do
  let lines ← readLines text
  let pieces := (lines.flatMap Line.tokens).splitOnP (·.text == ";")
  let statements ← readStatements false pieces.dropLast
  match pieces.getLast?.bind (·.head?) with
  | some first => first.refuse .unterminatedStatement
  | none => return ofStatements statements ((lines.filterMap Line.declared?).getLast?.getD 0)

end PseudoBoolean.Opb
