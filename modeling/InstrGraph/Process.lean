import InstrGraph.Canonical.Rewrite
import InstrGraph.Document
import InstrGraph.Graph.Build

/-!
# The work on one function

A function is brought into canonical form, its graph is built and written as a document. Nothing
here depends on other functions or on files.
-/

namespace InstrGraph

/-- Everything that is made of a function. -/
structure Output where
  canonical : CanonicalFunction
  symbols : SymbolTables
  document : Document
  /-- The warnings of the canonical form, then those of the graph. -/
  diagnostics : List Diagnostic
  deriving Repr

/-- The graph of a canonical function, and the warnings on the way. -/
def Canonicalized.buildGraph (c : Canonicalized) (metadata : Metadata) (config : Config) :
    Except Error (Graph × List Diagnostic) :=
  (Builder.of c.function c.symbols metadata config.graph
    config.canonicalize.constantPlaceholder).build

/-- The work on one function. -/
def processFunction (f : Function) (metadata : Metadata) (frequency : FrequencyTables)
    (config : Config) : Except Error Output := do
  let c := canonicalize metadata frequency config.canonicalize f
  let (graph, diagnostics) ← c.buildGraph metadata config
  let document ← Document.ofGraph graph
  return { canonical := .ofFunction c.function
           symbols := c.symbols
           document
           diagnostics := c.diagnostics ++ diagnostics }

end InstrGraph
