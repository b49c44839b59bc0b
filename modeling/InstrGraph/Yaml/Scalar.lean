import InstrGraph.Text.Hex
import InstrGraph.Yaml.Cursor

/-!
# Scalars of a YAML text

A scalar is written plain, between quotes of either kind, or as a block of lines. The lines of a
plain or quoted scalar are folded: a single line break becomes a blank, and of several ones the
first is dropped. A literal block keeps its line breaks.

The functions take the cursor to the beginning of a scalar and return the characters it stands for
together with the place behind it. Where there is a `fuel`, the length of the text is enough, since
every step takes a character.
-/

namespace InstrGraph.Yaml

/-- How a scalar is written. -/
inductive Style where
  | plain
  | singleQuoted
  | doubleQuoted
  | literal
  | folded
  deriving DecidableEq, Repr

/-! ## Gaps -/

/-- Blanks and line breaks inside a scalar: the blanks before the first line break, and the line
breaks. -/
structure Gap where
  blanks : List Char := []
  breaks : List Char := []
  deriving DecidableEq, Repr

namespace Gap

/-- Nothing at all. -/
def isEmpty (g : Gap) : Bool := g.blanks.isEmpty && g.breaks.isEmpty

/-- The gap leads to another line. -/
def crossesLine (g : Gap) : Bool := !g.breaks.isEmpty

/-- What a gap is read as. -/
def text (g : Gap) : List Char :=
  match g.breaks with
  | [] => g.blanks
  | first :: more =>
    if first != '\n' then first :: more else if more.isEmpty then [' '] else more

end Gap

/-- The line breaks from here on, and the place behind them and the blanks between them. A tab
may not stand in the first `indent` columns of a line. -/
def readBreaks (indent : Nat) : (fuel : Nat) → Cursor → Option (List Char × Cursor)
  | 0, c => some ([], c)
  | fuel + 1, c =>
    match c.lineBreak? with
    | none => some ([], c)
    | some (b, c) =>
      let (blanks, c) := c.span isBlank
      if (blanks.take indent).contains '\t' then none
      else (readBreaks indent fuel c).map fun (bs, c) => (b :: bs, c)

/-- The gap that stands here, and the place behind it. -/
def readGap (indent fuel : Nat) (c : Cursor) : Option (Gap × Cursor) :=
  let (blanks, c) := c.span isBlank
  (readBreaks indent fuel c).map fun (breaks, c) => (⟨blanks, breaks⟩, c)

/-! ## Plain scalars -/

/-- A bracket, brace or comma, which ends a plain scalar inside brackets. -/
def isFlowIndicator (c : Char) : Bool :=
  c == ',' || c == '[' || c == ']' || c == '\x7b' || c == '\x7d'

/-- The characters of a plain scalar up to the next gap or indicator. Inside brackets, a colon may
not stand directly before an indicator. -/
def plainRun (inFlow : Bool) : List Char → Option (List Char)
  | [] => some []
  | c :: rest =>
    if isBlank c || isBreak c then some []
    else if inFlow && c == ':' && rest.head?.any (fun d => isFlowIndicator d || d == '?') then none
    else if (c == ':' && atGap rest) || (inFlow && isFlowIndicator c) then some []
    else (plainRun inFlow rest).map (c :: ·)

/-- The rest of a plain scalar behind a gap. Also tells whether its last gap, which is not part of
it, leads to another line. -/
def readPlainFrom (inFlow : Bool) (indent : Nat) :
    (fuel : Nat) → Gap → Cursor → Option (List Char × Bool × Cursor)
  | 0, gap, c => some ([], gap.crossesLine, c)
  | fuel + 1, gap, c =>
    if c.atMarker || c.sees '#' then some ([], gap.crossesLine, c)
    else
      match plainRun inFlow c.rest with
      | none => none
      | some [] => some ([], gap.crossesLine, c)
      | some run =>
        let text := gap.text ++ run
        match readGap indent fuel (c.past run.length) with
        | none => none
        | some (next, c) =>
          if next.isEmpty then some (text, false, c)
          else if !inFlow && c.column < indent then some (text, next.crossesLine, c)
          else (readPlainFrom inFlow indent fuel next c).map fun (more, crosses, c) =>
            (text ++ more, crosses, c)

/-- A plain scalar. Outside brackets, its further lines are indented by `indent` at least. -/
def readPlain (inFlow : Bool) (indent : Nat) (c : Cursor) : Option (List Char × Bool × Cursor) :=
  readPlainFrom inFlow indent c.rest.length {} c

/-! ## Quoted scalars -/

/-- The character that a one-letter escape stands for. -/
def escape? : Char → Option Char
  | '0' => some '\x00'
  | 'a' => some '\x07'
  | 'b' => some '\x08'
  | 't' => some '\t'
  | '\t' => some '\t'
  | 'n' => some '\n'
  | 'v' => some '\x0b'
  | 'f' => some '\x0c'
  | 'r' => some '\r'
  | 'e' => some '\x1b'
  | ' ' => some ' '
  | '"' => some '"'
  | '/' => some '/'
  | '\\' => some '\\'
  | 'N' => some '\x85'
  | '_' => some '\xa0'
  | 'L' => some '\u2028'
  | 'P' => some '\u2029'
  | _ => none

/-- How many hexadecimal digits follow the letter of an escape. -/
def codeLength? : Char → Option Nat
  | 'x' => some 2
  | 'u' => some 4
  | 'U' => some 8
  | _ => none

/-- The character with a code, which may not be a surrogate. -/
def charOfCode? (n : Nat) : Option Char := if n.isValidChar then some (Char.ofNat n) else none

/-- The character that an escape stands for, behind its backslash, and how long the escape is. -/
def readEscape : List Char → Option (Char × Nat)
  | [] => none
  | e :: rest =>
    match codeLength? e with
    | none => (escape? e).map fun c => (c, 1)
    | some n =>
      if (rest.take n).length < n then none
      else
        (Text.hexNumber? (rest.take n)).bind fun code =>
          (charOfCode? code).map fun c => (c, n + 1)

/-- A quoted scalar behind its opening quote. A backslash at the end of a line takes away the line
break and the blanks that follow. -/
def readQuoted (double : Bool) : (fuel : Nat) → Cursor → Option (List Char × Cursor)
  | 0, _ => none
  | fuel + 1, c =>
    let after (text : List Char) (c : Cursor) : Option (List Char × Cursor) :=
      (readQuoted double fuel c).map fun (more, c) => (text ++ more, c)
    match c.rest with
    | [] => none
    | ch :: rest =>
      if isBlank ch || isBreak ch then
        match readGap 0 (fuel + 1) c with
        | some (gap, c) => if c.atMarker then none else after gap.text c
        | none => none
      else if !double && ch == '\'' then
        if rest.head? == some '\'' then after ['\''] (c.past 2) else some ([], c.past 1)
      else if double && ch == '"' then some ([], c.past 1)
      else if double && ch == '\\' then
        match (c.past 1).lineBreak? with
        | some (_, c) =>
          match readBreaks 0 fuel (c.skip isBlank) with
          | some (breaks, c) => if c.atMarker then none else after breaks c
          | none => none
        | none => (readEscape rest).bind fun (e, n) => after [e] (c.past (n + 1))
      else after [ch] (c.past 1)

/-! ## Blocks of lines -/

/-- What becomes of the line breaks at the end of a block: all are dropped, the first is kept, or
all are kept. -/
inductive Chomping where
  | strip
  | clip
  | keep
  deriving DecidableEq, Repr

/-- The sign that stands for a way of chomping. -/
def chomping? : Char → Option Chomping
  | '-' => some .strip
  | '+' => some .keep
  | _ => none

/-- A digit that says how far a block is indented. -/
def indentDigit? (c : Char) : Option Nat :=
  if '1' ≤ c && c ≤ '9' then some (c.toNat - '0'.toNat) else none

/-- The signs behind the indicator of a block, in either order; `0` stands for no digit. -/
def blockHints (c : Cursor) : Chomping × Nat × Cursor :=
  match c.rest with
  | [] => (.clip, 0, c)
  | a :: rest =>
    match chomping? a, indentDigit? a with
    | some k, _ =>
      match rest.head?.bind indentDigit? with
      | some n => (k, n, c.past 2)
      | none => (k, 0, c.past 1)
    | none, some n =>
      match rest.head?.bind chomping? with
      | some k => (k, n, c.past 2)
      | none => (.clip, n, c.past 1)
    | none, none => (.clip, 0, c)

/-- The empty lines of a block from here on, each as its line break, the largest column that one of
them or the line behind them begins at, and the place behind the indentation of that line. An
`indent` of `0` is not known yet. -/
def readEmptyLines (indent : Nat) :
    (fuel : Nat) → (widest : Nat) → Cursor → Option (List Char × Nat × Cursor)
  | 0, widest, c => some ([], widest, c)
  | fuel + 1, widest, c =>
    let blanks := (c.rest.takeWhile (· == ' ')).length
    let c := c.past (if indent = 0 then blanks else min blanks (indent - c.column))
    let widest := max widest c.column
    if (indent = 0 || c.column < indent) && c.sees '\t' then none
    else
      match c.lineBreak? with
      | none => some ([], widest, c)
      | some (b, c) =>
        (readEmptyLines indent fuel widest c).map fun (bs, widest, c) => (b :: bs, widest, c)

/-- A block up to its last line that is not empty. -/
structure BlockLines where
  text : List Char
  /-- The line break behind the last line. -/
  lineEnd : List Char
  /-- The empty lines that follow. -/
  empty : List Char
  next : Cursor
  deriving DecidableEq, Repr

/-- The lines of a block that are indented by `indent`. A line break between two lines that begin
without a blank is folded, unless the block is literal. -/
def readBlockLines (literal : Bool) (indent : Nat) : (fuel : Nat) → (lineEnd : List Char) →
    (afterBlank : Bool) → (empty : List Char) → Cursor → Option BlockLines
  | 0, lineEnd, _, empty, c => some ⟨[], lineEnd, empty, c⟩
  | fuel + 1, lineEnd, afterBlank, empty, c =>
    if c.column != indent || c.rest.isEmpty then some ⟨[], lineEnd, empty, c⟩
    else
      let beginsBlank := c.rest.head?.any isBlank
      let joint :=
        if !literal && lineEnd == ['\n'] && !afterBlank && !beginsBlank then
          if empty.isEmpty then [' '] else []
        else lineEnd
      let (line, c) := c.span fun ch => !isBreak ch
      let (lineEnd, c) := match c.lineBreak? with
        | some (b, c) => ([b], c)
        | none => ([], c)
      match readEmptyLines indent (fuel + 1) 0 c with
      | none => none
      | some (next, _, c) =>
        (readBlockLines literal indent fuel lineEnd beginsBlank next c).map fun lines =>
          { lines with text := joint ++ empty ++ line ++ lines.text }

/-- A block of lines behind its indicator. `parent` is the indentation of what it stands in, `-1`
for the whole document. -/
def readBlock (literal : Bool) (parent : Int) (c : Cursor) : Option (List Char × Cursor) :=
  let (chomping, digit, c) := blockHints c
  match c.endOfLine? with
  | none => none
  | some c =>
    let wanted := if digit = 0 then 0 else (max parent 0).toNat + digit
    match readEmptyLines wanted (c.rest.length + 1) 0 c with
    | none => none
    | some (empty, widest, c) =>
      let indent := if wanted = 0 then max (max widest (parent + 1).toNat) 1 else wanted
      (readBlockLines literal indent c.rest.length [] false empty c).map fun lines =>
        let tail := match chomping with
          | .strip => []
          | .clip => lines.lineEnd
          | .keep => lines.lineEnd ++ lines.empty
        (lines.text ++ tail, lines.next)

end InstrGraph.Yaml
