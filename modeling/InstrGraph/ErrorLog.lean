import InstrGraph.Diagnostic
import InstrGraph.Error

/-!
# The log of a run

What went wrong, by unit and function. A key has its last failure and all of its warnings. What
happens under one key does not touch the others, so the rows do not depend on how the work on
different functions is interleaved.
-/

namespace InstrGraph

/-- What an entry of the log is about. -/
structure LogKey where
  unit : String
  function : String
  deriving DecidableEq, Repr

namespace LogKey

/-- The key for what concerns a whole unit. -/
def wholeUnit (unit : String) : LogKey := ⟨unit, "*"⟩

/-- The order of the rows: by unit, then by function. -/
def before (a b : LogKey) : Bool :=
  a.unit < b.unit || (a.unit == b.unit && a.function < b.function)

end LogKey

/-- A failure. -/
structure Failure where
  kind : String
  message : String
  deriving DecidableEq, Repr

/-- The failure that an error stands for. -/
def Failure.ofError (e : Error) : Failure := ⟨e.kind, e.message⟩

/-- What the log says under a key. -/
structure LogEntry where
  error : Option Failure := none
  warnings : List String := []
  deriving DecidableEq, Repr

/-- A row of the log. -/
structure LogRow where
  key : LogKey
  entry : LogEntry
  deriving DecidableEq, Repr

/-- Something that is written to the log. -/
inductive LogEvent where
  | failure (key : LogKey) (error : Error)
  | warnings (key : LogKey) (diagnostics : List Diagnostic)
  deriving Repr

/-- The log: its rows in their order, at most one for every key. -/
structure ErrorLog where
  rows : List LogRow := []
  deriving DecidableEq, Repr

namespace ErrorLog

/-- Change the entry of a key, which is empty at first. -/
def updateRows (key : LogKey) (f : LogEntry → LogEntry) : List LogRow → List LogRow
  | [] => [⟨key, f {}⟩]
  | r :: rows =>
    if r.key = key then ⟨key, f r.entry⟩ :: rows
    else if key.before r.key then ⟨key, f {}⟩ :: r :: rows
    else r :: updateRows key f rows

/-- A failure takes the place of an earlier one. -/
def recordFailure (l : ErrorLog) (key : LogKey) (e : Error) : ErrorLog :=
  ⟨updateRows key (fun entry => { entry with error := some (.ofError e) }) l.rows⟩

/-- Warnings are added to earlier ones. Without any warning nothing changes. -/
def recordWarnings (l : ErrorLog) (key : LogKey) (ds : List Diagnostic) : ErrorLog :=
  if ds.isEmpty then l
  else
    ⟨updateRows key (fun entry =>
      { entry with warnings := entry.warnings ++ ds.map Diagnostic.line }) l.rows⟩

/-- The log after an event. -/
def record (l : ErrorLog) : LogEvent → ErrorLog
  | .failure key e => l.recordFailure key e
  | .warnings key ds => l.recordWarnings key ds

/-- The log after several events. -/
def recordAll (l : ErrorLog) (events : List LogEvent) : ErrorLog := events.foldl record l

/-- How many keys have a failure. -/
def failureCount (l : ErrorLog) : Nat := (l.rows.filter fun r => r.entry.error.isSome).length

/-- How many warnings there are. -/
def warningCount (l : ErrorLog) : Nat :=
  l.rows.foldr (fun r n => r.entry.warnings.length + n) 0

/-- Nothing went wrong. -/
def isEmpty (l : ErrorLog) : Bool := l.rows.isEmpty

end ErrorLog

end InstrGraph
