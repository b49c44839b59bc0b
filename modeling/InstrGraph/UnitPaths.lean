import InstrGraph.Config.Sections
import InstrGraph.Hash.Blake3
import InstrGraph.Path
import InstrGraph.Token

/-!
# The files of a unit

A unit is a summary file whose name ends with a certain suffix; what is before the suffix is the
stem of the unit. Companion files and outputs are named after the stem. The graph of a function
also has the name of the function in its file name, with every character replaced that a file name
cannot hold. If that changes the name, a part of its hash keeps different functions apart.
-/

namespace InstrGraph

/-- The files that belong to a unit. -/
structure UnitPaths where
  stem : String
  summary : String
  globals : Option String
  structs : Option String
  deriving DecidableEq, Repr

/-- The text without `tail` at its end, if it ends with it. -/
def dropTail? (s tail : String) : Option String :=
  if tail.toList.isSuffixOf s.toList then
    some (String.ofList (s.toList.take (s.toList.length - tail.toList.length)))
  else none

namespace UnitPaths

/-- The stem of a summary file. -/
def stem? (path suffix : String) : Option String :=
  ((Path.fileName? path).bind fun name => dropTail? name suffix).filter fun s => !s.isEmpty

/-- The files of the unit with a summary file, if its name is that of one. -/
def resolve? (summary : String) (globalsDir structsDir : Option String) (files : Config.Files) :
    Option UnitPaths :=
  (stem? summary files.summarySuffix).map fun stem =>
    { stem
      summary
      globals := globalsDir.map fun dir => Path.join dir (stem ++ files.globalsSuffix)
      structs := structsDir.map fun dir => Path.join dir (stem ++ files.structsSuffix) }

end UnitPaths

/-! ## Outputs -/

/-- A control character. -/
def isControl (c : Char) : Bool := c.toNat < 0x20 || (0x7F ≤ c.toNat && c.toNat ≤ 0x9F)

/-- A character that a file name cannot hold everywhere. -/
def isUnsafeInName (c : Char) : Bool := isControl c || "/\\:*?\"<>|".toList.contains c

/-- The text with an underscore for every unsafe character. It is neither empty nor a name for a
directory. -/
def cleanName (bare : String) : String :=
  let cleaned := Token.onString (List.map fun c => if isUnsafeInName c then '_' else c) bare
  if cleaned = "" || cleaned = "." || cleaned = ".." then "_" else cleaned

/-- The name of a function as a part of a file name. -/
def fileComponent (name : String) : String :=
  let bare := Token.onString (List.dropWhile (· == '@')) name
  let cleaned := cleanName bare
  if cleaned = bare then cleaned
  else cleaned ++ "_" ++ String.ofList ((Blake3.hexHash bare).take 8)

/-- The file for the graph of a function. -/
def graphPath (outDir stem function : String) (files : Config.Files) : String :=
  Path.join outDir (stem ++ "_" ++ fileComponent function ++ files.graphSuffix)

/-- The file for the canonical functions of a unit. -/
def canonicalPath (outDir stem : String) : String := Path.join outDir (stem ++ "_canonical.json")

/-- The file for the errors of a run. -/
def errorsPath (outDir : String) : String := Path.join outDir "errors.json"

end InstrGraph
