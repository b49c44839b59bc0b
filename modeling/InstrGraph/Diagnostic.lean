/-!
# Warnings

What is odd about a function without being an error: an operand that resolves to nothing, a name
that the metadata lacks, a block that nothing reaches.
-/

namespace InstrGraph

/-- The kinds of warnings. -/
inductive DiagnosticKind where
  | unresolvedReference
  | metadataGap
  | unreachableBlock
  deriving DecidableEq, Repr

/-- The word for a kind of warning. -/
def DiagnosticKind.name : DiagnosticKind → String
  | unresolvedReference => "unresolved_reference"
  | metadataGap => "metadata_gap"
  | unreachableBlock => "unreachable_block"

/-- A warning, with the instruction it is about if there is one. -/
structure Diagnostic where
  kind : DiagnosticKind
  instructionId : Option UInt32
  message : String
  deriving DecidableEq, Repr

namespace Diagnostic

/-- An operand of an instruction resolves to nothing. -/
def unresolved (id : UInt32) (operand : String) : Diagnostic :=
  ⟨.unresolvedReference, some id, "operand `" ++ operand ++ "` does not resolve"⟩

/-- A name is missing from the metadata; `what` says what kind of name. -/
def metadataGap (id : Option UInt32) (what name : String) : Diagnostic :=
  ⟨.metadataGap, id, what ++ " `" ++ name ++ "` not found in metadata"⟩

/-- Nothing leads to a block. -/
def unreachableBlock (label : String) : Diagnostic :=
  ⟨.unreachableBlock, none, "block `" ++ label ++ "` has no incoming edge"⟩

/-- The line for a warning: its kind, its instruction and its message. -/
def line (d : Diagnostic) : String :=
  match d.instructionId with
  | some id => "[" ++ d.kind.name ++ "] #" ++ toString id.toNat ++ ": " ++ d.message
  | none => "[" ++ d.kind.name ++ "] " ++ d.message

end Diagnostic

end InstrGraph
