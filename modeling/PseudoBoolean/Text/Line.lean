import PseudoBoolean.Text.Blank

/-!
Lines and words.

A newline ends a line, and a carriage return just before it belongs to the ending. Text after the
last newline is a line unless it is empty. Words are the maximal runs without blanks.

    "a b\r\n\nc"   ──lines──▶   "a b", "", "c"   ──words──▶   ["a", "b"], [], ["c"]
-/

namespace PseudoBoolean.Text

/-- A line without the carriage return that ended it. -/
def dropReturn (line : List Char) : List Char :=
  if line.getLast? = some '\r' then line.dropLast else line

/-- The lines of a character list. -/
def linesOf (cs : List Char) : List (List Char) :=
  let pieces := cs.splitOn '\n'
  pieces.dropLast.map dropReturn ++ (pieces.getLast?.toList.filter (· ≠ []))

/-- The words of a character list. -/
def wordsOf (cs : List Char) : List (List Char) := (cs.splitOnP isBlank).filter (· ≠ [])

/-- A character list without the blanks at its ends. -/
def trimOf (cs : List Char) : List Char :=
  ((cs.dropWhile isBlank).reverse.dropWhile isBlank).reverse

/-- The lines of a text. -/
def lines (text : String) : List String := (linesOf text.toList).map String.ofList

/-- The lines of a text, each with its number, from one. -/
def numberedLines (text : String) : List (Nat × String) :=
  (lines text).zipIdx 1 |>.map fun (line, number) => (number, line)

/-- The words of a text. -/
def words (text : String) : List String := (wordsOf text.toList).map String.ofList

/-- The first word of a text, empty if it has none. -/
def firstWord (text : String) : String := (words text).headD ""

/-- A text without the blanks at its ends. -/
def trim (text : String) : String := String.ofList (trimOf text.toList)

/-- Words, with one space between any two. -/
def joinWords (words : List String) : String := " ".intercalate words

/-- What stands before and after the first occurrence of `mark`, if it occurs. -/
def cut? (mark : List Char) : List Char → Option (List Char × List Char)
  | [] => if mark = [] then some ([], []) else none
  | c :: cs =>
    if mark.isPrefixOf (c :: cs) then some ([], (c :: cs).drop mark.length)
    else (cut? mark cs).map fun (before, after) => (c :: before, after)

end PseudoBoolean.Text
