import InstrGraph.Config.Sections
import InstrGraph.Symbols.RenameTable
import InstrGraph.Usage

/-!
# The symbol tables of a function

One rename table for each kind of name, and the common callees, which keep their names. Globals
have a table only if they are renamed at all.
-/

namespace InstrGraph

/-- The rename tables of one function. -/
structure SymbolTables where
  vars : RenameTable
  params : RenameTable
  labels : RenameTable
  structs : RenameTable
  calls : RenameTable
  /-- Absent if globals keep their names. -/
  globals : Option RenameTable
  /-- The common callees of the function, each once. -/
  exemptCalls : List String := []
  deriving DecidableEq, Repr

namespace SymbolTables

/-- Tables without names. Parameters are numbered from one, everything else from zero. -/
def empty (style : Config.LabelStyle) (renameGlobals : Bool) : SymbolTables where
  vars := .empty "%var" 0
  params := .empty "%arg" 1
  labels := .empty style.stem 0
  structs := .empty "%struct_" 0
  calls := .empty "@function_" 0
  globals := if renameGlobals then some (.empty "@global_var_" 0) else none

/-- The name of a global after renaming. -/
def canonicalGlobal (s : SymbolTables) (name : String) : String :=
  (s.globals.bind (·.get? name)).getD name

/-- The name of a global before renaming. -/
def globalKey (s : SymbolTables) (canonical : String) : String :=
  (s.globals.bind (·.originalOf? canonical)).getD canonical

/-- The callee keeps its name. -/
def isExemptCall (s : SymbolTables) (name : String) : Bool := s.exemptCalls.contains name

/-- Note a variable. -/
def noteVar (s : SymbolTables) (name : String) : SymbolTables :=
  { s with vars := s.vars.insert name }

/-- Note a parameter. -/
def noteParam (s : SymbolTables) (name : String) : SymbolTables :=
  { s with params := s.params.insert name }

/-- Note a block label. -/
def noteLabel (s : SymbolTables) (name : String) : SymbolTables :=
  { s with labels := s.labels.insert name }

/-- Note an aggregate type. -/
def noteStruct (s : SymbolTables) (name : String) : SymbolTables :=
  { s with structs := s.structs.insert name }

/-- Note a callee that is renamed. -/
def noteCall (s : SymbolTables) (name : String) : SymbolTables :=
  { s with calls := s.calls.insert name }

/-- Note a global, if globals are renamed. -/
def noteGlobal (s : SymbolTables) (name : String) : SymbolTables :=
  { s with globals := s.globals.map (·.insert name) }

/-- Note a callee that keeps its name. -/
def noteExemptCall (s : SymbolTables) (name : String) : SymbolTables :=
  { s with exemptCalls := pushUnique s.exemptCalls name }

/-- Without a table of globals, every global keeps its name. -/
theorem canonicalGlobal_eq_self {s : SymbolTables} (h : s.globals = none) (name : String) :
    s.canonicalGlobal name = name := by simp [canonicalGlobal, h]

/-- Without a table of globals, every global is its own key. -/
theorem globalKey_eq_self {s : SymbolTables} (h : s.globals = none) (name : String) :
    s.globalKey name = name := by simp [globalKey, h]

end SymbolTables

end InstrGraph
