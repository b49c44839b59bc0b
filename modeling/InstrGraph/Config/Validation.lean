import InstrGraph.Config.Sections
import InstrGraph.Error
import InstrGraph.Token

/-!
# Which configurations are sensible

Each section is checked by itself, and the first fault found ends the check. A placeholder may
look neither like an identifier nor like an integer, else a canonical text would not stay as it is.
-/

namespace InstrGraph.Config

/-- The fault of a number that is out of its range. -/
def outOfRange (field : String) (value min max : Nat) (hint : String) : ConfigError :=
  .range field (toString value) (toString min) (toString max) hint

/-- The fault of a placeholder that could be read as something else. -/
def collision (placeholder : String) : ConfigError :=
  .invalid "canonicalize.constant_placeholder"
    ("'" ++ placeholder ++ "' collides with identifier or integer syntax")

/-- The check of the section about canonical functions. -/
def Canonicalize.validate (c : Canonicalize) : Except ConfigError Unit :=
  let placeholder := Token.trim c.constantPlaceholder
  if placeholder.isEmpty then
    .error (.invalid "canonicalize.constant_placeholder" "must not be empty")
  else if Token.isLocal placeholder || Token.isGlobal placeholder ||
      (Token.int? placeholder).isSome then
    .error (collision placeholder)
  else if c.alwaysLiteral.length > 4096 then
    .error (outOfRange "canonicalize.always_literal" c.alwaysLiteral.length 0 4096
      "Use a frequency table for large constant sets")
  else .ok ()

/-- The check of the section about common constants and callees. -/
def Frequency.validate (c : Frequency) : Except ConfigError Unit :=
  if c.minCount < 1 then
    .error (outOfRange "frequency.min_count" c.minCount 1 0xFFFFFFFF
      "A count of 0 would make every value common")
  else if c.topK = some 0 then
    .error (outOfRange "frequency.top_k" 0 1 0xFFFFFFFFFFFFFFFF
      "Omit top_k to keep every entry")
  else .ok ()

/-- The check of the section about workers. -/
def Parallel.validate (c : Parallel) : Except ConfigError Unit :=
  if c.numWorkers > 256 then
    .error (outOfRange "parallel.num_workers" c.numWorkers 0 256
      "Number of workers must be reasonable (0=auto)")
  else if c.stackSizeMb < 1 || c.stackSizeMb > 64 then
    .error (outOfRange "parallel.stack_size_mb" c.stackSizeMb 1 64 "Stack size must be reasonable")
  else .ok ()

/-- The check of the suffixes, each with the name of its field. -/
def validateSuffixes : List (String × String) → Except ConfigError Unit
  | [] => .ok ()
  | (field, suffix) :: rest =>
    if suffix.isEmpty then .error (.invalid field "must not be empty")
    else if suffix.toList.any fun c => c == '/' || c == '\\' then
      .error (.invalid field "must not contain path separators")
    else validateSuffixes rest

/-- The check of the section about files. -/
def Files.validate (c : Files) : Except ConfigError Unit := do
  validateSuffixes
    [("io.summary_suffix", c.summarySuffix), ("io.globals_suffix", c.globalsSuffix),
      ("io.structs_suffix", c.structsSuffix), ("io.iscg_suffix", c.graphSuffix)]
  if c.globalsSuffix = c.summarySuffix || c.structsSuffix = c.summarySuffix then
    .error (.invalid "io.summary_suffix" "companion suffixes must differ from the summary suffix")
  else .ok ()

/-- The check of a whole configuration, section by section. -/
def validate (c : Config) : Except ConfigError Unit := do
  c.canonicalize.validate
  c.frequency.validate
  c.parallel.validate
  c.files.validate

end InstrGraph.Config
