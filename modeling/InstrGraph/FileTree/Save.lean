import InstrGraph.FileTree.Basic

/-!
# Saving outputs

An output is written to a temporary file first, which is then moved to its place. So nobody sees
a part of it, and writers of different outputs get in each other's way only if their temporary
files are the same.
-/

namespace InstrGraph.FileTree

/-- The temporary file for an output. -/
def temporaryPath (path : String) : String := Path.withExtension path "json.tmp"

/-- Make the directory of an output. -/
def makeParent (t : FileTree) (path : String) : Except Error Unit × FileTree :=
  match Path.parent? path with
  | none => (.ok (), t)
  | some parent =>
    let (result, t) := t.makeDirectory parent
    (result.mapError (Error.file parent), t)

/-- The first step of saving: the directory is made, and the text is written to the temporary
file. -/
def stage (t : FileTree) (path text : String) : Except Error Unit × FileTree :=
  match t.makeParent path with
  | (.error e, t) => (.error e, t)
  | (.ok (), t) =>
    let (result, t) := t.write (temporaryPath path) text
    (result.mapError (Error.file (temporaryPath path)), t)

/-- The second step: the temporary file is moved to its place. -/
def commit (t : FileTree) (path : String) : Except Error Unit × FileTree :=
  let (result, t) := t.rename (temporaryPath path) path
  (result.mapError (Error.file path), t)

/-- Save an output. -/
def save (t : FileTree) (path text : String) : Except Error Unit × FileTree :=
  match t.stage path text with
  | (.error e, t) => (.error e, t)
  | (.ok (), t) => t.commit path

end InstrGraph.FileTree
