import InstrGraph.Text.Blank
import InstrGraph.Text.Word

/-!
# Identifiers inside instruction text

An identifier is a sigil (`%` for local names, `@` for global ones) followed by at least one name
character. A text is cut into *pieces*: the identifiers, each as long as it can be, and the single
characters between them.

* `pieces` cuts a text and `render` puts it together again; `render_pieces` says that nothing is
  lost.
* `identifiers` lists the identifiers from left to right.
* `rewrite` replaces identifiers and nothing else, so a new name never touches a part of a longer
  identifier (`%1` inside `%10`).
* `splitSuffix` separates the numeric suffix of a name (`%struct.node.12`).
-/

namespace InstrGraph.Text

/-- The first character of an identifier. -/
def isSigil (c : Char) : Bool := c == '%' || c == '@'

/-- The characters of an identifier after its sigil. -/
def isNameChar (c : Char) : Bool := isWord c || c == '-' || c == '$' || c == '.' || c == ':'

/-- A part of a text: an identifier, or one character that belongs to none. -/
inductive Piece where
  | other (c : Char)
  | ident (sigil : Char) (name : List Char)
  deriving DecidableEq, Repr

namespace Piece

/-- The characters a piece stands for. -/
def chars : Piece → List Char
  | other c => [c]
  | ident sigil name => sigil :: name

/-- The identifier of a piece, if it is one. -/
def ident? : Piece → Option (List Char)
  | other _ => none
  | ident sigil name => some (sigil :: name)

/-- The name characters at the front of a list of pieces, and the pieces after them. -/
def takeName : List Piece → List Char × List Piece
  | other c :: ps =>
    if isNameChar c then
      let (name, rest) := takeName ps
      (c :: name, rest)
    else ([], other c :: ps)
  | ps => ([], ps)

/-- Put a character in front of a text already cut into pieces. A sigil takes the name characters
that follow it; a sigil without any is an ordinary character. -/
def push (c : Char) (ps : List Piece) : List Piece :=
  if isSigil c && !(takeName ps).1.isEmpty then
    ident c (takeName ps).1 :: (takeName ps).2
  else other c :: ps

end Piece

/-- A text cut into identifiers and single characters. -/
def pieces (cs : List Char) : List Piece := cs.foldr Piece.push []

/-- The text that the pieces stand for. -/
def render (ps : List Piece) : List Char := ps.flatMap Piece.chars

/-- The identifiers of a text, from left to right. -/
def identifiers (cs : List Char) : List (List Char) := (pieces cs).filterMap Piece.ident?

/-- The characters a piece is replaced by when `f` names identifiers anew. -/
def Piece.renamed (f : List Char → Option (List Char)) : Piece → List Char
  | .other c => [c]
  | .ident sigil name => (f (sigil :: name)).getD (sigil :: name)

/-- The text with every identifier replaced for which `f` returns a new name. -/
def rewrite (f : List Char → Option (List Char)) (cs : List Char) : List Char :=
  (pieces cs).flatMap (Piece.renamed f)

/-! ## Cutting loses nothing -/

/-- What is taken up as a name and the other pieces make the text again. -/
theorem render_takeName (ps : List Piece) :
    (Piece.takeName ps).1 ++ render (Piece.takeName ps).2 = render ps := by
  induction ps with
  | nil => rfl
  | cons p ps ih =>
    cases p with
    | ident s n => rfl
    | other c =>
      simp only [Piece.takeName]
      split
      · simpa [render, Piece.chars] using ih
      · rfl

/-- One more piece puts its character in front of the text. -/
theorem render_push (c : Char) (ps : List Piece) : render (Piece.push c ps) = c :: render ps := by
  unfold Piece.push
  split
  · simpa [render, Piece.chars] using render_takeName ps
  · rfl

/-- The pieces of a text stand for the text. -/
theorem render_pieces (cs : List Char) : render (pieces cs) = cs := by
  induction cs with
  | nil => rfl
  | cons c cs ih =>
    show render (Piece.push c (pieces cs)) = c :: cs
    rw [render_push, ih]

/-- Rewriting without any new name changes nothing. -/
theorem rewrite_none (cs : List Char) : rewrite (fun _ => none) cs = cs := by
  have h : Piece.renamed (fun _ => none) = Piece.chars := by
    funext p; cases p <;> rfl
  rw [rewrite, h]
  exact render_pieces cs

/-! ## Shapes of names -/

/-- Where the reading of a numeric suffix stands. -/
inductive SuffixState where
  | start
  | dot
  | digit
  deriving DecidableEq, Repr

/-- One or more groups, each a dot and at least one digit. -/
def isSuffixFrom : SuffixState → List Char → Bool
  | .digit, [] => true
  | _, [] => false
  | .start, c :: rest => c == '.' && isSuffixFrom .dot rest
  | .dot, c :: rest => isDigit c && isSuffixFrom .digit rest
  | .digit, c :: rest =>
    if c == '.' then isSuffixFrom .dot rest else isDigit c && isSuffixFrom .digit rest

/-- A name and the longest numeric suffix it ends with (`.12`, `.1.2`), empty if there is none. -/
def splitSuffix : List Char → List Char × List Char
  | [] => ([], [])
  | c :: rest =>
    if isSuffixFrom .start (c :: rest) then ([], c :: rest)
    else
      let (base, suffix) := splitSuffix rest
      (c :: base, suffix)

/-- A text is what is left without its suffix, and the suffix. -/
theorem splitSuffix_append (cs : List Char) : (splitSuffix cs).1 ++ (splitSuffix cs).2 = cs := by
  induction cs with
  | nil => rfl
  | cons c cs ih =>
    simp only [splitSuffix]
    split
    · rfl
    · simpa using ih

/-- The number of bytes of a text in UTF-8. -/
def byteLength (cs : List Char) : Nat := cs.foldr (fun c n => c.utf8Size + n) 0

/-- The name without its numeric suffix. What would leave at most one byte is a name of its own
(`%.0`) and stays whole. -/
def stripSuffix (cs : List Char) : List Char :=
  if byteLength (splitSuffix cs).1 > 1 then (splitSuffix cs).1 else cs

/-- The first characters of the names of aggregate types. -/
def aggregateHeads : List (List Char) :=
  ["%struct.".toList, "%class.".toList, "%union.".toList]

/-- The name of an aggregate type, by its first characters. -/
def isStructLike (cs : List Char) : Bool := aggregateHeads.any fun h => h.isPrefixOf cs

end InstrGraph.Text
