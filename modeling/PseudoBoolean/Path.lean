/-!
Paths: text whose pieces are separated by slashes.

Nothing is normalized: a path keeps the text it was given. Joining adds a separator where none
stands, and replacing the extension changes the last name only:

    "a/b.min.opb"  ⟼  "a/b.min.cnf"        "a/.."    ⟼  "a/.."
    ".opb"         ⟼  ".opb.cnf"           "..opb"   ⟼  ".."
    "a.opb/."      ⟼  "a.cnf"              "..opb/"  ⟼  "..cnf"
-/

namespace PseudoBoolean

/-- A path as it was written. -/
structure Path where
  text : String
  deriving DecidableEq

namespace Path

/-- What stands between the slashes, empty pieces included. -/
def pieces (p : Path) : List (List Char) := p.text.toList.splitOn '/'

def isAbsolute (p : Path) : Bool := p.text.toList.head? == some '/'

/-- A path below `p`. An absolute one stands for itself. -/
def join (p : Path) (below : String) : Path :=
  if (Path.mk below).isAbsolute then ⟨below⟩
  else if p.text = "" ∨ p.text.toList.getLast? = some '/' then ⟨p.text ++ below⟩
  else ⟨p.text ++ "/" ++ below⟩

/-- The piece that names the directory above. -/
def up : List Char := ['.', '.']

/-- Whether a piece names the place where it stands. -/
def isHere (piece : List Char) : Bool := piece = [] || piece = ['.']

/-- The last name of a path and the pieces before it, latest first. A path that ends in `..` or
names nothing has none. -/
def splitLast? (p : Path) : Option (List Char × List (List Char)) :=
  match p.pieces.reverse.dropWhile isHere with
  | [] => none
  | name :: before => if name = up then none else some (name, before)

/-- The last name of a path. -/
def fileName? (p : Path) : Option String := p.splitLast?.map fun (name, _) => String.ofList name

/-- A name up to its last dot. A dot that begins the name does not count. -/
def stem (name : List Char) : List Char :=
  match name.reverse.dropWhile (· ≠ '.') with
  | _ :: c :: before => (c :: before).reverse
  | _ => name

/-- A last name with its extension replaced, or one added where there is none. The old extension is
cut off before the new one is put on, and at the very end of a path what is cut must still be a
name: `..opb` is cut to `..`, and stays that. -/
def renameLast (name extension : List Char) (isEnd : Bool) : List Char :=
  if isEnd && stem name == ['.'] then up else stem name ++ '.' :: extension

/-- The path with the extension of its last name replaced. Separators after the name are dropped. -/
def withExtension (p : Path) (extension : String) : Path :=
  match p.splitLast? with
  | none => p
  | some (name, before) =>
    let name := renameLast name extension.toList (p.pieces.getLast? == some name)
    ⟨String.ofList (['/'].intercalate (name :: before).reverse)⟩

/-- What a path is compared by: its names, a leading dot or slash included, without empty pieces and
without dots further on. -/
def components (p : Path) : List (List Char) :=
  match p.pieces with
  | [] => []
  | first :: rest =>
    (if first ≠ [] then [first] else if p.isAbsolute then [['/']] else []) ++
      rest.filter (!isHere ·)

/-- Whether two paths have the same components. -/
def same (p q : Path) : Bool := p.components == q.components

end Path

end PseudoBoolean
