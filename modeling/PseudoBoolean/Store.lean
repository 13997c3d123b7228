import PseudoBoolean.Path

/-!
Files and directories under a working directory.

A path is walked piece by piece from the working directory, and every piece but the last must lead
to a directory. Only whether an operation succeeds matters here, so a refusal carries no reason.
-/

namespace PseudoBoolean

/-- What stands at a location. -/
inductive Entry where
  | file (content : ByteArray)
  | directory

/-- The names on the way from the working directory, or from `/`. A way that leads above the working
directory begins with `..`. -/
abbrev Location := List (List Char)

/-- A tree of files and directories. The working directory, those above it and `/` always exist. -/
structure Store where
  entries : List (Location × Entry)

namespace Store

def empty : Store := ⟨[]⟩

/-- Whether a location is the working directory or one above it. -/
def isAbove (loc : Location) : Bool := loc.all (· == Path.up)

/-- What stands at a location, if anything does. -/
def entry? (s : Store) (loc : Location) : Option Entry :=
  if isAbove loc ∨ loc = [['/']] then some .directory else s.entries.lookup loc

def isDirectory (s : Store) (loc : Location) : Bool :=
  match s.entry? loc with
  | some .directory => true
  | _ => false

/-- The tree with an entry put at a location. -/
def put (s : Store) (loc : Location) (e : Entry) : Store := ⟨(loc, e) :: s.entries⟩

/-! ### Walking a path -/

/-- The longest name, in bytes. -/
def maxName : Nat := 255

/-- The longest path, in bytes. -/
def maxPath : Nat := 4095

/-- Whether text can be handed to the system: it holds no NUL. -/
def isPlain (text : String) : Bool := !text.toList.contains '\x00'

/-- Whether a path is short enough and holds no NUL. -/
def isUsable (p : Path) : Bool :=
  isPlain p.text && p.text.utf8ByteSize ≤ maxPath && p.pieces.all fun name =>
    (String.ofList name).utf8ByteSize ≤ maxName

/-- Where a piece leads from a location. -/
def step (loc : Location) (piece : List Char) : Location :=
  if Path.isHere piece then loc
  else if piece = Path.up then
    if loc = [['/']] then loc else if isAbove loc then loc ++ [piece] else loc.dropLast
  else loc ++ [piece]

/-- Where a walk begins, and the pieces it takes. -/
def start (p : Path) : Location × List (List Char) :=
  if p.isAbsolute then ([['/']], p.pieces.drop 1) else ([], p.pieces)

/-- Walks into a directory. -/
def enter (s : Store) (loc : Location) (piece : List Char) : Option Location :=
  if s.isDirectory (step loc piece) then some (step loc piece) else none

/-- The location of a path whose every piece but the last leads to a directory. -/
def resolve (s : Store) (p : Path) : Option Location :=
  if isUsable p then do
    let (root, pieces) := start p
    let dir ← pieces.dropLast.foldlM s.enter root
    pieces.getLast?.map (step dir)
  else none

/-! ### Operations -/

/-- The content of a file. -/
def read (s : Store) (p : Path) : Option ByteArray :=
  match (s.resolve p).bind s.entry? with
  | some (.file content) => some content
  | _ => none

/-- The tree with a file's content written. -/
def write (s : Store) (p : Path) (content : ByteArray) : Option Store := do
  let loc ← s.resolve p
  if s.isDirectory loc then none else some (s.put loc (.file content))

/-- Walks into a directory, which is made where nothing stands. -/
def makeStep (s : Store) (loc : Location) (piece : List Char) : Option (Store × Location) :=
  let next := step loc piece
  match s.entry? next with
  | some .directory => some (s, next)
  | some (.file _) => none
  | none => some (s.put next .directory, next)

/-- Whether pieces end in a dot. No directory is made by that name. -/
def endsInDot (pieces : List (List Char)) : Bool :=
  (pieces.filter (· ≠ [])).getLast? == some ['.']

/-- The tree with a directory made, and those above it. What a dot at the end stands for must be a
directory already. -/
def makeDir (s : Store) (p : Path) : Option Store :=
  if isUsable p then do
    let (root, pieces) := start p
    let (made, loc) ← pieces.foldlM (fun (s, loc) piece => s.makeStep loc piece) (s, root)
    if endsInDot pieces && !s.isDirectory loc then none else some made
  else none

end Store

end PseudoBoolean
