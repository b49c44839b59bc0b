import InstrGraph.Error
import InstrGraph.Path

/-!
# Trees of files

The files that a run works on: every place in the tree is nothing, a file with its text, or a
directory. A path is looked up step by step, and every place on the way has to be a directory.

Places are named from the working directory. What is outside of it has names of its own, which no
file can have: two dots for each directory upwards, and a slash for the root.

An operation that may fail returns its failure together with the tree, since a failed operation can
leave something behind.
-/

namespace InstrGraph

/-- What a path leads to. -/
inductive Entry where
  | file (text : String)
  | directory
  deriving DecidableEq, Repr

/-- The names on the way from the working directory to a place. -/
abbrev Place := List String

/-- The directory that a place is in. -/
def Place.up (p : Place) : Place :=
  if p.all (· == "..") then p ++ [".."] else if p == ["/"] then p else p.dropLast

/-- The way from a place down to another one, both being on the same side of the working
directory. -/
def Place.below? (p q : Place) : Option Place :=
  let way := q.drop p.length
  if p.isPrefixOf q && way.head?.any fun name => name != ".." && name != "/" then some way else none

/-- A tree of files, each place at most once. -/
structure FileTree where
  entries : List (Place × Entry) := []
  deriving DecidableEq, Repr

/-- A step of a path. -/
inductive Step where
  | stay
  | up
  | into (name : String)
  deriving DecidableEq, Repr

/-- The step that a piece of a path stands for. -/
def Step.ofPiece (piece : List Char) : Step :=
  if piece = [] || piece = ['.'] then stay
  else if piece = ['.', '.'] then up
  else into (String.ofList piece)

/-- The steps of a path. -/
def stepsOf (path : String) : List Step := (Path.pieces path.toList).map Step.ofPiece

/-- The place where the steps of a path begin. -/
def startOf (path : String) : Place := if path.toList.head? == some '/' then ["/"] else []

/-- The name is longer than 255 octets. -/
def isLongName (name : String) : Bool := name.utf8ByteSize > 255

namespace FileTree

/-- What is at a place. -/
def entry? (t : FileTree) (p : Place) : Option Entry :=
  if p.isEmpty then some .directory else t.entries.lookup p

/-- Take away what is at a place. -/
def erase (t : FileTree) (p : Place) : FileTree := ⟨t.entries.filter fun e => e.1 != p⟩

/-- Put something at a place. -/
def set (t : FileTree) (p : Place) (e : Entry) : FileTree := ⟨(p, e) :: (t.erase p).entries⟩

/-- The place that steps lead to from a place; there need not be anything. -/
def walk (t : FileTree) : Place → List Step → Except FileError Place
  | p, [] => .ok p
  | p, s :: steps =>
    match t.entry? p with
    | none => .error .notFound
    | some (.file _) => .error .notADirectory
    | some .directory =>
      match s with
      | .stay => walk t p steps
      | .up => walk t p.up steps
      | .into name => if isLongName name then .error .nameTooLong else walk t (p ++ [name]) steps

/-- The place that a path leads to. -/
def locate (t : FileTree) (path : String) : Except FileError Place :=
  if path.toList.contains '\x00' then .error .nullInPath
  else if path.isEmpty then .error .notFound
  else t.walk (startOf path) (stepsOf path)

/-- What a path leads to. -/
def find (t : FileTree) (path : String) : Except FileError Entry :=
  match t.locate path with
  | .error e => .error e
  | .ok p =>
    match t.entry? p with
    | some e => .ok e
    | none => .error .notFound

/-- The path leads to a file or a directory. -/
def leadsSomewhere (t : FileTree) (path : String) : Bool := (t.find path).toOption.isSome

/-- The path leads to a file. -/
def hasFile (t : FileTree) (path : String) : Bool :=
  match t.find path with
  | .ok (.file _) => true
  | _ => false

/-- The text of a file. -/
def read (t : FileTree) (path : String) : Except FileError String :=
  match t.find path with
  | .ok (.file text) => .ok text
  | .ok .directory => .error .isADirectory
  | .error e => .error e

/-- Write a file; an earlier one at its place is lost. -/
def write (t : FileTree) (path text : String) : Except FileError Unit × FileTree :=
  match t.locate path with
  | .error e => (.error e, t)
  | .ok p =>
    match t.entry? p with
    | some .directory => (.error .isADirectory, t)
    | _ => (.ok (), t.set p (.file text))

/-- Take a file away. -/
def remove (t : FileTree) (path : String) : Except FileError Unit × FileTree :=
  match t.locate path with
  | .error e => (.error e, t)
  | .ok p =>
    match t.entry? p with
    | some (.file _) => (.ok (), t.erase p)
    | some .directory => (.error .isADirectory, t)
    | none => (.error .notFound, t)

/-- Move a file to another path, where an earlier file is lost. -/
def rename (t : FileTree) (source target : String) : Except FileError Unit × FileTree :=
  match t.locate source, t.locate target with
  | .error e, _ => (.error e, t)
  | _, .error e => (.error e, t)
  | .ok p, .ok q =>
    match t.entry? p, t.entry? q with
    | some (.file _), some .directory => (.error .isADirectory, t)
    | some (.file text), _ => (.ok (), (t.erase p).set q (.file text))
    | some .directory, _ => (.error .isADirectory, t)
    | none, _ => (.error .notFound, t)

/-- Make a directory at a place, unless there is something. -/
def ensureDirectory (t : FileTree) (p : Place) : FileTree :=
  if (t.entry? p).isSome then t else t.set p .directory

/-- Make the directories that steps lead through, as far as they are missing. -/
def makeDirectories (t : FileTree) : Place → List Step → Except FileError Unit × FileTree
  | _, [] => (.ok (), t)
  | p, .stay :: steps => makeDirectories t p steps
  | p, .up :: steps => makeDirectories (t.ensureDirectory p.up) p.up steps
  | p, .into name :: steps =>
    let q := p ++ [name]
    if isLongName name then (.error .nameTooLong, t)
    else
      match t.entry? q with
      | none => makeDirectories (t.set q .directory) q steps
      | some .directory => makeDirectories t q steps
      | some (.file _) => (.error (if steps.isEmpty then .alreadyExists else .notADirectory), t)

/-- Make a directory and those it is in. -/
def makeDirectory (t : FileTree) (path : String) : Except FileError Unit × FileTree :=
  if path.toList.contains '\x00' then (.error .nullInPath, t)
  else (t.ensureDirectory (startOf path)).makeDirectories (startOf path) (stepsOf path)

/-! ## Listings -/

/-- The files below a place, each by the names on the way to it, with its text. -/
def filesBelow (t : FileTree) (p : Place) : List (Place × String) :=
  t.entries.filterMap fun (q, e) =>
    match e with
    | .file text => (p.below? q).map fun way => (way, text)
    | .directory => none

/-- The path of what is below a directory. -/
def pathBelow (directory : String) (below : Place) : String :=
  Path.join directory ("/".intercalate below)

/-- The files below a directory by their paths, in the order of their paths. -/
def listing (t : FileTree) (directory : String) : List (String × String) :=
  match t.locate directory with
  | .error _ => []
  | .ok p =>
    ((t.filesBelow p).map fun (below, text) => (pathBelow directory below, text)).mergeSort
      fun a b => !(b.1 < a.1)

end FileTree

end InstrGraph
