import InstrGraph.CommandLine.Execute

/-!
# The program

The outer layer: the files that a command names are read into a tree, the command works on that
tree, and what it has changed is written back. A file that is not UTF-8 text is left out, so that
the command does not find it.
-/

namespace InstrGraph.Program

open CommandLine

/-- How deep directories are read. -/
def depthOfDirectories : Nat := 64

/-- Put a text or a directory into the tree under a path. -/
def putEntry (t : FileTree) (path : String) (entry : Entry) : FileTree :=
  let t := match entry with
    | .file _ => (t.makeParent path).2
    | .directory => (t.makeDirectory path).2
  match entry with
  | .file text => (t.write path text).2
  | .directory => t

/-- Read a file, or a directory with everything below it. What is not there adds nothing. -/
def readInto (t : FileTree) (path : String) : (depth : Nat) → IO FileTree
  | 0 => return t
  | depth + 1 => do
    try
      let place ← IO.FS.realPath path
      if ← place.isDir then
        let mut t := putEntry t path .directory
        for e in ← place.readDir do
          t ← readInto t (Path.join path e.fileName) depth
        return t
      else
        return putEntry t path (.file (← IO.FS.readFile place))
    catch _ => return t

/-- The paths that a command reads. -/
def pathsOf : Command → List String
  | .run summaries out _ c =>
    [some summaries, some out, c.globals, c.structs, c.config, c.commonConstants,
      c.commonCalls].filterMap id
  | .function summary _ _ c =>
    [some summary, c.globals, c.structs, c.config, c.commonConstants, c.commonCalls].filterMap id

/-- The paths of the tables that the configuration of a command names. -/
def tablesOf (t : FileTree) : Command → List String
  | .run _ _ _ c | .function _ _ _ c =>
    match c.loadConfig t with
    | .ok config => [config.frequency.constantsPath, config.frequency.callsPath].filterMap id
    | .error _ => []

/-- The path of a place. -/
def pathOf : Place → String
  | "/" :: names => "/" ++ "/".intercalate names
  | names => "/".intercalate names

/-- Write what a command has changed. -/
def writeBack (before after : FileTree) : IO Unit := do
  for (place, entry) in after.entries.reverse do
    if before.entry? place != some entry then
      match entry with
      | .directory => IO.FS.createDirAll (pathOf place)
      | .file text => IO.FS.writeFile (pathOf place) text
  for (place, entry) in before.entries do
    match entry, after.entry? place with
    | .file _, none => IO.FS.removeFile (pathOf place)
    | _, _ => pure ()

/-- Run a command. -/
def perform (command : Command) : IO UInt32 := do
  let mut t : FileTree := {}
  for path in pathsOf command do
    t ← readInto t path depthOfDirectories
  for path in tablesOf t command do
    t ← readInto t path depthOfDirectories
  let outcome := command.execute t
  writeBack t outcome.tree
  for m in outcome.messages do
    IO.eprintln m
  IO.print outcome.out
  return UInt32.ofNat outcome.exitCode

/-- How the program is called. -/
def usageText : String :=
  "Usage: iscg run --summaries DIR --out DIR [--globals DIR] [--structs DIR] [--jobs N]\n" ++
    "       iscg function --summary FILE [--globals FILE] [--structs FILE] [--name NAME]\n" ++
    "            [--canonical]\n" ++
    "Options: --config FILE  --common-constants FILE  --common-calls FILE  --pretty  --verbose"

/-- Run the program with the words of its command line. -/
def run (args : List String) : IO UInt32 := do
  match parse args with
  | .error .help =>
    IO.println usageText
    return 0
  | .error .usage =>
    IO.eprintln usageText
    return 2
  | .ok command => perform command

end InstrGraph.Program

def main (args : List String) : IO UInt32 := InstrGraph.Program.run args
