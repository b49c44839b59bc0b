/-!
# Paths of files

A path is a text whose components stand between slashes. Empty components mean nothing, and neither
does a dot, unless it comes first. Paths are compared by their components.
-/

namespace InstrGraph.Path

/-- A component of a path. -/
inductive Component where
  /-- The slash at the front of an absolute path. -/
  | root
  /-- A dot at the front. -/
  | here
  /-- Two dots. -/
  | up
  | name (s : String)
  deriving DecidableEq, Repr

/-- A text cut at its slashes. -/
def pieces : List Char → List (List Char)
  | [] => [[]]
  | c :: cs =>
    if c == '/' then [] :: pieces cs
    else
      match pieces cs with
      | p :: ps => (c :: p) :: ps
      | [] => [[c]]

/-- The component that a piece stands for behind the first one. -/
def innerComponent? (piece : List Char) : Option Component :=
  if piece = [] || piece = ['.'] then none
  else if piece = ['.', '.'] then some .up
  else some (.name (String.ofList piece))

/-- The components of a path. -/
def components (path : String) : List Component :=
  let inner := (pieces path.toList).filterMap innerComponent?
  match path.toList with
  | '/' :: _ => .root :: inner
  | ['.'] => [.here]
  | '.' :: '/' :: _ => .here :: inner
  | _ => inner

/-- The path of a file in a directory. An absolute path stays what it is. -/
def join (directory path : String) : String :=
  if path.toList.head? == some '/' || directory.isEmpty then path
  else if directory.toList.getLast? == some '/' then directory ++ path
  else directory ++ "/" ++ path

/-- The last component, if it is a name. -/
def fileName? (path : String) : Option String :=
  match (components path).getLast? with
  | some (.name s) => some s
  | _ => none

/-- The beginning of a text that is given from its end, without slashes and dots that mean nothing
at its end. The text is given from its end, and so is the result. -/
def trimReversed : List Char → List Char
  | ['/'] => ['/']
  | '/' :: cs => trimReversed cs
  | ['.', '/'] => ['/']
  | '.' :: '/' :: cs => trimReversed ('/' :: cs)
  | cs => cs

/-- The path without its last component; a root and the empty path have none. -/
def parent? (path : String) : Option String :=
  match (components path).getLast? with
  | none => none
  | some .root => none
  | some _ =>
    let body := (trimReversed path.toList.reverse).dropWhile (· != '/')
    some (String.ofList (trimReversed body).reverse)

/-- A file name without its extension: the text before its last dot, unless that is the first
character. -/
def stem (name : String) : String :=
  match name.toList.reverse.dropWhile (· != '.') with
  | '.' :: c :: cs => String.ofList (c :: cs).reverse
  | _ => name

/-- The path with another extension behind the stem of its file name. Without a file name nothing
changes. -/
def withExtension (path extension : String) : String :=
  match fileName? path with
  | none => path
  | some name =>
    let trimmed := trimReversed path.toList.reverse
    let directory := trimmed.drop name.length
    String.ofList directory.reverse ++ stem name ++ "." ++ extension

/-- The place of a kind of component in the order of components. -/
def Component.rank : Component → Nat
  | root => 0
  | here => 1
  | up => 2
  | name _ => 3

/-- The order of components: by kind, and names by their characters. -/
def Component.before (a b : Component) : Bool :=
  match a, b with
  | name s, name t => s < t
  | _, _ => a.rank < b.rank

/-- The order of lists of components. -/
def componentsBefore : List Component → List Component → Bool
  | [], [] => false
  | [], _ :: _ => true
  | _ :: _, [] => false
  | a :: as, b :: bs => a.before b || (a == b && componentsBefore as bs)

/-- One path comes before another one. -/
def before (p q : String) : Bool := componentsBefore (components p) (components q)

end InstrGraph.Path
