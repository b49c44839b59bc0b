import InstrGraph.Text.Hex
import InstrGraph.Yaml.Cursor

/-!
# Names, tags and directives of a YAML text

What a node may have in front of its content: an anchor, which gives it a name, and a tag, which
gives it a type. A tag is a handle and a suffix; the handle stands for the beginning of the tag.
Directives give the version of the notation and further handles.

A tag is a sequence of octets. Its escapes may make octets beyond ASCII, each of which is kept as
the character of that number. An octet zero ends what it stands in, a suffix or the meaning of a
handle; what is written behind it must be in order but does not count.
-/

namespace InstrGraph.Yaml

/-- A character that may stand behind the name of an anchor. -/
def endsName (c : Char) : Bool :=
  c == '?' || c == ':' || c == ',' || c == ']' || c == '\x7d' || c == '%' || c == '@' || c == '\x60'

/-- The name of an anchor behind its sign. -/
def readAnchor (c : Cursor) : Option (List Char × Cursor) :=
  let (name, c) := c.span isNameChar
  if name.isEmpty || !(atGap c.rest || c.rest.head?.any endsName) then none else some (name, c)

/-! ## Tags -/

/-- A character of a tag. Commas and square brackets belong to it only between angle brackets. -/
def isTagChar (verbatim : Bool) (c : Char) : Bool :=
  isNameChar c || ";/?:@&=+$.!~*'()".contains c ||
    (verbatim && (c == ',' || c == '[' || c == ']'))

/-- How many octets a character takes whose first octet is `n`. -/
def octetCount? (n : Nat) : Option Nat :=
  if n < 0x80 then some 1
  else if 0xC0 ≤ n && n < 0xE0 then some 2
  else if 0xE0 ≤ n && n < 0xF0 then some 3
  else if 0xF0 ≤ n && n < 0xF8 then some 4
  else none

/-- How many octets of a character are missing behind the octet `n`, if `missing` were before. -/
def octetsLeft? (missing n : Nat) : Option Nat :=
  if missing = 0 then (octetCount? n).map (· - 1)
  else if 0x80 ≤ n && n < 0xC0 then some (missing - 1)
  else none

/-- The octets of a tag from here on, and the text behind them; `missing` octets of a character
that was begun with an escape must come first, as escapes too. -/
def readTagChars (verbatim : Bool) : (missing : Nat) → List Char → Option (List Char × List Char)
  | missing, '%' :: a :: b :: rest =>
    match Text.hexNumber? [a, b] with
    | none => none
    | some n =>
      match octetsLeft? missing n with
      | none => none
      | some left =>
        (readTagChars verbatim left rest).map fun (cs, rest) => (Char.ofNat n :: cs, rest)
  | missing, c :: rest =>
    if missing != 0 || c == '%' then none
    else if isTagChar verbatim c then
      (readTagChars verbatim 0 rest).map fun (cs, rest) => (c :: cs, rest)
    else some ([], c :: rest)
  | missing, [] => if missing = 0 then some ([], []) else none

/-- What counts of the octets that are written: those in front of the first zero. -/
def upToZero (octets : List Char) : List Char := octets.takeWhile (· != '\x00')

/-- A tag as it is written: an empty handle stands for nothing. -/
structure TagName where
  handle : List Char
  suffix : List Char
  deriving DecidableEq, Repr

/-- The tag that is written as `name` behind its exclamation mark and then `suffix`. A lone mark is
a tag of its own. -/
def localTag (name suffix : List Char) : TagName :=
  let suffix := upToZero suffix
  if name.isEmpty && suffix.isEmpty then ⟨[], ['!']⟩ else ⟨['!'], name ++ suffix⟩

/-- A tag behind its exclamation mark, and the text behind it. Between angle brackets and behind a
handle with a name, some octet must be written. -/
def readTagName : List Char → Option (TagName × List Char)
  | '<' :: rest =>
    match readTagChars true 0 rest with
    | some (suffix, '>' :: rest) =>
      if suffix.isEmpty then none else some (⟨[], upToZero suffix⟩, rest)
    | _ => none
  | cs =>
    let name := cs.takeWhile isNameChar
    match cs.drop name.length with
    | '!' :: rest =>
      (readTagChars false 0 rest).bind fun (suffix, rest) =>
        if suffix.isEmpty then none else some (⟨'!' :: (name ++ ['!']), upToZero suffix⟩, rest)
    | rest => (readTagChars false 0 rest).map fun (suffix, rest) => (localTag name suffix, rest)

/-- A tag. Inside brackets a comma may follow it. -/
def readTag (inFlow : Bool) (c : Cursor) : Option (TagName × Cursor) :=
  (readTagName (c.rest.drop 1)).bind fun (tag, rest) =>
    if atGap rest || (inFlow && rest.head? == some ',') then some (tag, c.upTo rest) else none

/-! ## Directives -/

/-- A line in front of a document. -/
inductive Directive where
  | version (major minor : Nat)
  /-- What a handle stands for. -/
  | handle (name stands : List Char)
  deriving DecidableEq, Repr

/-- A number of at most nine digits. -/
def readNumber (cs : List Char) : Option (Nat × List Char) :=
  let ds := cs.takeWhile Char.isDigit
  if ds.isEmpty || ds.length > 9 then none
  else some (ds.foldl (fun n d => 10 * n + (d.toNat - '0'.toNat)) 0, cs.drop ds.length)

/-- The version of the notation: two numbers with a point between them. -/
def readVersion (cs : List Char) : Option (Directive × List Char) :=
  match readNumber cs with
  | some (major, '.' :: rest) =>
    (readNumber rest).map fun (minor, rest) => (.version major minor, rest)
  | _ => none

/-- A handle, with what it stands for behind blanks. -/
def readHandle : List Char → Option (Directive × List Char)
  | '!' :: cs =>
    let name := cs.takeWhile isNameChar
    let (handle, rest) := match cs.drop name.length with
      | '!' :: rest => ('!' :: (name ++ ['!']), rest)
      | rest => ('!' :: name, rest)
    let stands := rest.dropWhile isBlank
    if (handle != ['!'] && handle.getLast? != some '!') || stands.length == rest.length then none
    else
      (readTagChars true 0 stands).bind fun (stands, rest) =>
        if stands.isEmpty || !atGap rest then none
        else some (.handle handle (upToZero stands), rest)
  | _ => none

/-- A directive behind its percent sign, and the beginning of the next line. -/
def readDirective (c : Cursor) : Option (Directive × Cursor) :=
  let (name, c) := c.span isNameChar
  if !atGap c.rest then none
  else
    let c := c.skip isBlank
    let value := if name = "YAML".toList then readVersion c.rest
      else if name = "TAG".toList then readHandle c.rest
      else none
    value.bind fun (d, rest) => (c.upTo rest).endOfLine?.map fun c => (d, c)

end InstrGraph.Yaml
