import InstrGraph.Carry
import InstrGraph.FileTree.Load
import InstrGraph.FileTree.Save
import InstrGraph.Format.Document
import InstrGraph.Format.ErrorLog
import InstrGraph.Json.Printer
import InstrGraph.Process
import InstrGraph.UnitPaths

/-!
# Runs over many units

A run finds the units below a directory and writes the graph of every function, the canonical
functions of every unit, and a log of what went wrong. A failure ends the work on one function or
one unit, not the run.

What has been written before can be left alone. The canonical functions of a unit are one file, so
if that is missing, all of its functions are worked on again, even those whose graph is there.

Units and functions do not depend on each other except by the files and the log. A `Schedule` says
in which order they are worked on.
-/

namespace InstrGraph

/-- Where a run finds its inputs and puts its outputs. -/
structure BatchInputs where
  summaries : String
  globalsDir : Option String
  structsDir : Option String
  outDir : String
  deriving DecidableEq, Repr

/-- What a run has done. -/
structure BatchReport where
  units : Nat := 0
  functions : Nat := 0
  written : Nat := 0
  skipped : Nat := 0
  failed : Nat := 0
  warnings : Nat := 0
  deriving DecidableEq, Repr

namespace BatchReport

/-- Two reports together. -/
def add (a b : BatchReport) : BatchReport where
  units := a.units + b.units
  functions := a.functions + b.functions
  written := a.written + b.written
  skipped := a.skipped + b.skipped
  failed := a.failed + b.failed
  warnings := a.warnings + b.warnings

/-- All reports together. -/
def total (rs : List BatchReport) : BatchReport := rs.foldl add {}

/-- How many functions have their graph. -/
def succeeded (r : BatchReport) : Nat := r.written + r.skipped

end BatchReport

/-- What became of a function. -/
inductive FunctionOutcome where
  | written (canonical : Option CanonicalFunction) (warnings : Nat)
  | skipped (canonical : Option CanonicalFunction)
  | failed
  deriving Repr

namespace FunctionOutcome

/-- What an outcome adds to the report. -/
def report : FunctionOutcome → BatchReport
  | written _ warnings => { functions := 1, written := 1, warnings }
  | skipped _ => { functions := 1, skipped := 1 }
  | failed => { functions := 1, failed := 1 }

/-- The canonical function, if it is wanted and there is one. -/
def canonical? : FunctionOutcome → Option CanonicalFunction
  | written c _ => c
  | skipped c => c
  | failed => none

end FunctionOutcome

/-- In which order the units of a run, and the functions of a unit, are worked on: given how many
there are, their positions one after another.

A unit is worked on as a whole, from loading its summary to saving its canonical functions, before
the next one is begun. Several workers can also mix the functions of different units; no schedule
stands for such an order. What has to hold of those, too, is stated of the events of the log and of
the steps by which two graphs are saved, mixed in any way. -/
structure Schedule where
  units : Nat → List Nat
  functions : (summary : String) → Nat → List Nat

/-- The order in which units are found and functions stand in their summary. -/
def Schedule.inOrder : Schedule := ⟨List.range, fun _ => List.range⟩

/-- The files and the log during a run. -/
structure RunState where
  tree : FileTree
  log : ErrorLog := {}
  deriving Repr

/-- A run: its configuration, its tables and its places. -/
structure Batch where
  config : Config
  frequency : FrequencyTables
  inputs : BatchInputs
  deriving Repr

namespace Batch

/-- The run of a configuration, which is checked, and whose tables are loaded. -/
def ofConfig (t : FileTree) (config : Config) (inputs : BatchInputs) : Except Error Batch :=
  match config.validate with
  | .error e => .error (.config e)
  | .ok () =>
    match t.loadFrequency config.frequency with
    | .error e => .error (.config e)
    | .ok frequency => .ok { config, frequency, inputs }

/-- A value as the text of an output. -/
def textOf (b : Batch) (j : Json) : String := j.text b.config.files.pretty

/-- There is something at the path of an output, and it is to be left alone. -/
def isKept (b : Batch) (t : FileTree) (path : String) : Bool :=
  b.config.files.skipExisting && t.leadsSomewhere path

/-- The work on a function of a unit. -/
def runFunction (b : Batch) (stem : String) (metadata : Metadata) (wantCanonical : Bool)
    (s : RunState) (f : Function) : FunctionOutcome × RunState :=
  let path := graphPath b.inputs.outDir stem f.name b.config.files
  let key : LogKey := ⟨stem, f.name⟩
  let isKept := b.isKept s.tree path
  if isKept && !wantCanonical then (.skipped none, s)
  else
    match processFunction f metadata b.frequency b.config with
    | .error e => (.failed, { s with log := s.log.recordFailure key e })
    | .ok output =>
      let canonical := if wantCanonical then some output.canonical else none
      if isKept then (.skipped canonical, s)
      else
        let log := s.log.recordWarnings key output.diagnostics
        match s.tree.save path (b.textOf output.document.toJson) with
        | (.ok (), tree) => (.written canonical output.diagnostics.length, ⟨tree, log⟩)
        | (.error e, tree) => (.failed, ⟨tree, log.recordFailure key e⟩)

/-- The functions of a unit and its metadata. -/
def loadUnit (t : FileTree) (unit : UnitPaths) : Except Error (List Function × Metadata) := do
  let functions ← t.loadSummary unit.summary
  let metadata ← t.loadMetadata unit.globals unit.structs
  return (functions, metadata)

/-- Write the canonical functions of a unit, if there are any. -/
def saveCanonical (b : Batch) (stem : String) (s : RunState) (canonical : List CanonicalFunction) :
    BatchReport × RunState :=
  if canonical.isEmpty then ({}, s)
  else
    let text := b.textOf (.array (canonical.map CanonicalFunction.toJson))
    match s.tree.save (canonicalPath b.inputs.outDir stem) text with
    | (.ok (), tree) => ({}, { s with tree })
    | (.error e, tree) => ({ failed := 1 }, ⟨tree, s.log.recordFailure (.wholeUnit stem) e⟩)

/-- The work on a unit. -/
def runUnit (b : Batch) (schedule : Schedule) (s : RunState) (summary : String) :
    BatchReport × RunState :=
  let files := b.config.files
  match UnitPaths.resolve? summary b.inputs.globalsDir b.inputs.structsDir files with
  | none => ({}, s)
  | some unit =>
    match loadUnit s.tree unit with
    | .error e =>
      ({ units := 1, failed := 1 }, { s with log := s.log.recordFailure (.wholeUnit unit.stem) e })
    | .ok (functions, metadata) =>
      let wantCanonical :=
        files.writeCanonical && !b.isKept s.tree (canonicalPath b.inputs.outDir unit.stem)
      let (outcomes, s) := mapCarryIn (schedule.functions summary functions.length)
        (b.runFunction unit.stem metadata wantCanonical) s functions
      let (saved, s) :=
        b.saveCanonical unit.stem s (outcomes.filterMap FunctionOutcome.canonical?)
      let worked := BatchReport.total (outcomes.map FunctionOutcome.report)
      (({ units := 1 } : BatchReport).add (worked.add saved), s)

/-- Write the log. -/
def saveLog (b : Batch) (s : RunState) : Except Error Unit × RunState :=
  let (result, tree) := s.tree.save (errorsPath b.inputs.outDir) s.log.toJson.pretty
  (result, { s with tree })

/-- The whole run. -/
def run (b : Batch) (schedule : Schedule) (s : RunState) : Except Error BatchReport × RunState :=
  match s.tree.unitsBelow b.inputs.summaries b.config.files.summarySuffix with
  | .error e => (.error e, s)
  | .ok units =>
    let (reports, s) :=
      mapCarryIn (schedule.units units.length) (b.runUnit schedule) s units
    match b.saveLog s with
    | (.error e, s) => (.error e, s)
    | (.ok (), s) => (.ok (BatchReport.total reports), s)

end Batch

end InstrGraph
