/-!
# Errors

Why a function, a file or a configuration is refused. Each cause is a constructor with what belongs
to it; the wording is in the `message` of its type. What the reader of a text says about it is part
of the wording only, and left out where errors are told apart.
-/

namespace InstrGraph

/-- Why a file operation fails. -/
inductive FileError where
  | notFound
  | alreadyExists
  | notADirectory
  | isADirectory
  | nameTooLong
  /-- A path holds a null character. -/
  | nullInPath
  deriving DecidableEq, Repr

/-- The wording of a failed file operation. -/
def FileError.message : FileError → String
  | notFound => "No such file or directory (os error 2)"
  | alreadyExists => "File exists (os error 17)"
  | notADirectory => "Not a directory (os error 20)"
  | isADirectory => "Is a directory (os error 21)"
  | nameTooLong => "File name too long (os error 36)"
  | nullInPath => "file name contained an unexpected NUL byte"

/-- Why a configuration is refused. -/
inductive ConfigError where
  /-- A number is out of its range. -/
  | range (field value min max hint : String)
  /-- A value is not allowed for another reason. -/
  | invalid (field reason : String)
  | missingVersion
  | unsupportedVersion (found : Nat) (supported : List Nat)
  | file (cause : FileError)
  /-- The text is no configuration file, as the reader of the text puts it. -/
  | yaml {reason : String}
  /-- A table of counts cannot be read, as the reader of its text puts it. -/
  | frequencyTable (path : String) {reason : String}
  deriving DecidableEq, Repr

/-- The wording of a refused configuration. -/
def ConfigError.message : ConfigError → String
  | range field value min max hint =>
    "Invalid range for field '" ++ field ++ "': " ++ value ++ " not in " ++ min ++ "..=" ++ max ++
      ". " ++ hint
  | invalid field reason => "Invalid value for field '" ++ field ++ "': " ++ reason
  | missingVersion =>
    "Missing 'version' field in configuration file. Add 'version: 1' to the top of your YAML file."
  | unsupportedVersion found supported =>
    "Unsupported configuration version " ++ toString found ++ ". Supported versions: " ++
      ", ".intercalate (supported.map toString)
  | file cause => "IO error: " ++ cause.message
  | @yaml reason => "YAML parsing error: " ++ reason
  | @frequencyTable path reason => "Frequency table '" ++ path ++ "': " ++ reason

/-- What ends the work on a function, a unit or a whole run. -/
inductive Error where
  /-- An instruction does not have the shape of its opcode. -/
  | malformed (function : String) (id : UInt32) (text reason : String)
  /-- A graph cannot be written as a document. -/
  | invariant (function reason : String)
  | file (path : String) (cause : FileError)
  /-- A text is not JSON, or not of the shape that is wanted, as the reader of the text puts it. -/
  | json {reason : String}
  | config (cause : ConfigError)
  deriving DecidableEq, Repr

namespace Error

/-- The word for the kind of an error. -/
def kind : Error → String
  | malformed .. => "malformed_instruction"
  | invariant .. => "serialization_invariant_violation"
  | file .. => "io"
  | json => "json"
  | config _ => "config"

/-- The wording of an error. -/
def message : Error → String
  | malformed function id text reason =>
    "Malformed instruction #" ++ toString id.toNat ++ " in '" ++ function ++ "': " ++ reason ++
      " (`" ++ text ++ "`)"
  | invariant function reason =>
    "Serialization invariant violated in '" ++ function ++ "': " ++ reason
  | file path cause => "IO error on " ++ path ++ ": " ++ cause.message
  | @json reason => "JSON error: " ++ reason
  | config cause => "Configuration error: " ++ cause.message

end Error

end InstrGraph
