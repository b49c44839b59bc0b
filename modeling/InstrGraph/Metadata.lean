import InstrGraph.Json.Basic
import InstrGraph.Token

/-!
# What is known about globals and aggregate types

A unit comes with two tables: its global variables and its aggregate types. A table may key its
entries with or without the sigil; a name is looked up as it is, and then without its sigil.
-/

namespace InstrGraph

/-- The class of a global variable. -/
inductive GlobalType where
  | string
  | int
  | float
  | double
  | struct
  | arrayPtr
  | ptrArray
  | unknown
  deriving DecidableEq, Repr

namespace GlobalType

/-- The word for a class. -/
def name : GlobalType → String
  | string => "string"
  | int => "int"
  | float => "float"
  | double => "double"
  | struct => "struct"
  | arrayPtr => "array_ptr"
  | ptrArray => "ptr_array"
  | unknown => "unknown"

/-- The class of a word; `unknown` for every word that names no other class. -/
def ofName : String → GlobalType
  | "string" => string
  | "int" => int
  | "float" => float
  | "double" => double
  | "struct" => struct
  | "array_ptr" => arrayPtr
  | "ptr_array" => ptrArray
  | _ => unknown

/-- Strings and aggregates never become nodes of a graph. -/
def isMaterialized : GlobalType → Bool
  | string | struct => false
  | _ => true

end GlobalType

/-- What is known about a global variable. -/
structure GlobalInfo where
  globalType : GlobalType := .unknown
  linkage : String := ""
  /-- The line that defines the variable. -/
  definition : String := ""
  value : Json := .null
  valueLens : Json := .null
  deriving Repr

/-- The globals and aggregate types of a unit, no name twice in a table. -/
structure Metadata where
  globals : List (String × GlobalInfo) := []
  structs : List (String × Json) := []
  deriving Repr

namespace Metadata

/-- What is known about a global, by its name with or without the sigil. -/
def global? (m : Metadata) (name : String) : Option GlobalInfo :=
  match m.globals.lookup name with
  | some info => some info
  | none => (Token.dropHead? name "@").bind fun bare => m.globals.lookup bare

/-- The global is known. -/
def hasGlobal (m : Metadata) (name : String) : Bool := (m.global? name).isSome

/-- The aggregate type is known, by its name with or without the sigil. -/
def hasStruct (m : Metadata) (name : String) : Bool :=
  (m.structs.lookup name).isSome ||
    ((Token.dropHead? name "%").bind fun bare => m.structs.lookup bare).isSome

end Metadata

end InstrGraph
