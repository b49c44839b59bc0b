import InstrGraph.Text.Annotation
import InstrGraph.Text.Identifier
import InstrGraph.Text.Immediate
import InstrGraph.Text.Label
import InstrGraph.Text.Literal

/-!
# Reading tokens off strings

The functions of `InstrGraph.Text` work on lists of characters. Here they are given for strings,
which is what records and tables hold. Each is its counterpart between `String.toList` and
`String.ofList`, so a fact about the characters is a fact about the string.
-/

namespace InstrGraph.Token

/-- A function on characters as a function on strings. -/
def onString (f : List Char → List Char) (s : String) : String := String.ofList (f s.toList)

/-- The last word of a phrase without the commas at its end: `ptr noundef %buf` gives `%buf`. -/
def last (s : String) : String := onString Text.lastToken s

/-- The text without blanks at either end. -/
def trim (s : String) : String := onString Text.trim s

/-- The text without attachments (`, !dbg !12`), blanks at its end and double quotes. -/
def stripAnnotations (s : String) : String := onString Text.stripAnnotations s

/-- The name without its numeric suffix: `%struct.node.12` gives `%struct.node`. -/
def stripSuffix (s : String) : String := onString Text.stripSuffix s

/-- The reference form of a block label: `7:` and `"7"` both give `%7`. -/
def normalizeLabel (s : String) : String := onString Text.normalizeLabel s

/-- The name of an aggregate type, by its first characters. -/
def isStructLike (s : String) : Bool := Text.isStructLike s.toList

/-- An integer, decimal, hexadecimal or word constant. -/
def isLiteral (s : String) : Bool := Text.isLiteral s.toList

/-- The integer that a text stands for, if it fits into 128 bits. -/
def int? (s : String) : Option Int := Text.readInt? s.toList

/-- The text begins with `head`. -/
def startsWith (s head : String) : Bool := head.toList.isPrefixOf s.toList

/-- A local name, by its sigil. -/
def isLocal (s : String) : Bool := startsWith s "%"

/-- A global name, by its sigil. -/
def isGlobal (s : String) : Bool := startsWith s "@"

/-- The text behind `head`, if it begins with it. -/
def dropHead? (s head : String) : Option String :=
  if startsWith s head then some (String.ofList (s.toList.drop head.toList.length)) else none

/-- The identifiers of a text, from left to right. -/
def symbols (s : String) : List String := (Text.identifiers s.toList).map String.ofList

/-- The text with every identifier replaced for which `f` returns a new name. -/
def rewrite (f : String → Option String) (s : String) : String :=
  onString (Text.rewrite fun t => (f (String.ofList t)).map String.toList) s

/-- The characters of a string after an operation are what the operation makes of them. -/
@[simp] theorem toList_onString (f : List Char → List Char) (s : String) :
    (onString f s).toList = f s.toList := by simp [onString]

/-- Rewriting without any new name changes nothing. -/
theorem rewrite_none (s : String) : rewrite (fun _ => none) s = s := by
  simp [rewrite, onString, Text.rewrite_none]

end InstrGraph.Token
