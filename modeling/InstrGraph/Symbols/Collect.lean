import InstrGraph.Diagnostic
import InstrGraph.Function
import InstrGraph.Metadata
import InstrGraph.Symbols.Frequency
import InstrGraph.Symbols.Tables

/-!
# Collecting the symbols of a function

One walk over the parameters, the labels and the instructions of a function fills its symbol
tables, each in the order of first sight. Names that the metadata ought to know but does not are
reported once each.

A local name is a parameter or a label, a variable that some instruction defines, or an aggregate
type. A global name is a global variable of the metadata, or else a function: it is renamed if
some instruction of the function calls it, unless it is common.
-/

namespace InstrGraph

/-- What the collection of symbols looks things up in. -/
structure CollectContext where
  metadata : Metadata
  frequency : FrequencyTables
  /-- The variables that the function defines. -/
  defined : List String
  /-- The names that the function calls. -/
  callees : List String

/-- What has been collected so far. -/
structure Collection where
  symbols : SymbolTables
  diagnostics : List Diagnostic := []
  /-- The names that have been reported as missing. -/
  reported : List String := []
  deriving DecidableEq, Repr

namespace Collection

/-- Report a missing name unless that has been done. -/
def reportGap (c : Collection) (id : Option UInt32) (what name : String) : Collection :=
  if c.reported.contains name then c
  else
    { c with
      diagnostics := c.diagnostics ++ [.metadataGap id what name]
      reported := name :: c.reported }

/-- See a local name. -/
def seeLocal (ctx : CollectContext) (id : Option UInt32) (c : Collection) (token : String) :
    Collection :=
  if c.symbols.params.contains token || c.symbols.labels.contains token then c
  else if ctx.defined.contains token then { c with symbols := c.symbols.noteVar token }
  else
    let base := Token.stripSuffix token
    if ctx.metadata.hasStruct base then { c with symbols := c.symbols.noteStruct base }
    else if ctx.metadata.hasStruct token then { c with symbols := c.symbols.noteStruct token }
    else if Token.isStructLike token then c.reportGap id "struct" base
    else c

/-- See a global name. -/
def seeGlobal (ctx : CollectContext) (id : Option UInt32) (c : Collection) (token : String) :
    Collection :=
  if ctx.metadata.hasGlobal token then { c with symbols := c.symbols.noteGlobal token }
  else if ctx.frequency.isCommonCall token then
    { c with symbols := c.symbols.noteExemptCall token }
  else if ctx.callees.contains token then { c with symbols := c.symbols.noteCall token }
  else c.reportGap id "global" token

/-- See an identifier. -/
def see (ctx : CollectContext) (id : Option UInt32) (c : Collection) (token : String) :
    Collection :=
  if Token.isLocal token then seeLocal ctx id c token else seeGlobal ctx id c token

/-- See the identifiers of a text, its annotations left out. -/
def scan (ctx : CollectContext) (id : Option UInt32) (c : Collection) (text : String) :
    Collection :=
  (Token.symbols (Token.stripAnnotations text)).foldl (see ctx id) c

/-- The texts of an instruction that are scanned: the text, the return type, the callee. -/
def textsOf (i : Instruction) : List String :=
  i.text :: (i.returnType.toList ++ i.calleeName?.toList)

/-- See the identifiers of an instruction. -/
def scanInstruction (ctx : CollectContext) (c : Collection) (i : Instruction) : Collection :=
  (textsOf i).foldl (scan ctx (some i.id)) c

end Collection

/-- The variables that a function defines. -/
def Function.definedVars (f : Function) : List String :=
  f.instructions.filterMap fun i => i.resultVar?.map Token.stripAnnotations

/-- The names that a function calls. -/
def Function.callees (f : Function) : List String :=
  f.instructions.filterMap fun i => i.calleeName?.map Token.stripAnnotations

/-- The symbol tables of a function, and a warning for every name that the metadata lacks.
Parameters come first; their declarations are scanned before the labels are known. -/
def collectSymbols (metadata : Metadata) (frequency : FrequencyTables)
    (config : Config.Canonicalize) (f : Function) : SymbolTables × List Diagnostic :=
  let ctx : CollectContext :=
    { metadata, frequency, defined := f.definedVars, callees := f.callees }
  let start := SymbolTables.empty config.labelStyle config.renameGlobals
  let withParams :=
    f.paramNames.foldl (fun s name => s.noteParam (Token.stripAnnotations name)) start
  let declared : Collection := f.params.foldl (Collection.scan ctx none) { symbols := withParams }
  let labelled : Collection :=
    { declared with
      symbols := f.blocks.foldl (fun s b => s.noteLabel (Token.normalizeLabel b.label))
        declared.symbols }
  let done := f.instructions.foldl (Collection.scanInstruction ctx) labelled
  (done.symbols, done.diagnostics)

end InstrGraph
