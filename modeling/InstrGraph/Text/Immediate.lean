import InstrGraph.Text.Blank
import InstrGraph.Text.Word

/-!
# Integer immediates inside instruction text

Two forms carry an integer whose value may be hidden: a typed immediate such as `i64 4096`, and
the attribute `dereferenceable(24)` (or `dereferenceable_or_null(24)`). Each begins at a word
boundary, and a typed immediate also ends at one.

`spans` cuts a text into the immediates of one form and the single characters between them, and
`hideImmediates` writes those anew that are not kept.
-/

namespace InstrGraph.Text

/-- The two forms of an immediate. -/
inductive ImmediateForm where
  | typed
  | dereferenceable
  deriving DecidableEq, Repr

/-- An immediate as it was found: the word in front (`i64`, `dereferenceable`), the characters
between it and the value, and the value. -/
structure Immediate where
  form : ImmediateForm
  head : List Char
  gap : List Char
  value : List Char
  deriving DecidableEq, Repr

namespace Immediate

/-- What closes an immediate of a form. -/
def closing : ImmediateForm → List Char
  | .typed => []
  | .dereferenceable => [')']

/-- The text of an immediate. -/
def chars (m : Immediate) : List Char := m.head ++ m.gap ++ m.value ++ closing m.form

/-- The text of an immediate whose value is hidden behind a placeholder. -/
def hidden (m : Immediate) (placeholder : List Char) : List Char :=
  match m.form with
  | .typed => m.head ++ ' ' :: placeholder
  | .dereferenceable => m.head ++ '(' :: placeholder ++ [')']

/-- The first character is no word character; the end of the text is none either. -/
def endsWord : List Char → Bool
  | [] => true
  | c :: _ => !isWord c

/-- A typed immediate at the front of a text: `i` and digits, blanks, an optional minus sign and
digits up to the end of a word. -/
def readTyped (cs : List Char) : Option Immediate :=
  match cs with
  | 'i' :: afterI =>
    let width := afterI.takeWhile isDigit
    let afterWidth := afterI.dropWhile isDigit
    let gap := afterWidth.takeWhile isBlank
    let afterGap := afterWidth.dropWhile isBlank
    let sign := afterGap.takeWhile (· == '-')
    let afterSign := afterGap.dropWhile (· == '-')
    let digits := afterSign.takeWhile isDigit
    let rest := afterSign.dropWhile isDigit
    if !width.isEmpty && !gap.isEmpty && sign.length ≤ 1 && !digits.isEmpty && endsWord rest then
      some ⟨.typed, 'i' :: width, gap, sign ++ digits⟩
    else none
  | _ => none

/-- The words that open a dereferenceable attribute, the longer one first. -/
def attributeWords : List (List Char) :=
  ["dereferenceable_or_null".toList, "dereferenceable".toList]

/-- A dereferenceable attribute at the front of a text: its word, and digits in parentheses. -/
def readDereferenceable (cs : List Char) : Option Immediate :=
  attributeWords.findSome? fun word =>
    if word.isPrefixOf cs then
      match cs.drop word.length with
      | '(' :: inner =>
        let digits := inner.takeWhile isDigit
        match inner.dropWhile isDigit with
        | ')' :: _ => if digits.isEmpty then none else some ⟨.dereferenceable, word, ['('], digits⟩
        | _ => none
      | _ => none
    else none

/-- An immediate of a form at the front of a text. -/
def read : ImmediateForm → List Char → Option Immediate
  | .typed => readTyped
  | .dereferenceable => readDereferenceable

end Immediate

/-- A part of a text: an immediate, or one character that belongs to none. -/
inductive Span where
  | other (c : Char)
  | immediate (m : Immediate)
  deriving DecidableEq, Repr

/-- The characters a span stands for. -/
def Span.chars : Span → List Char
  | other c => [c]
  | immediate m => m.chars

/-- Cut a text into the immediates of a form and single characters. `afterWord` tells whether the
character before the text is a word character, and `skip` counts the characters that still belong
to the immediate found last. -/
def spansFrom (form : ImmediateForm) : (afterWord : Bool) → (skip : Nat) → List Char → List Span
  | _, _, [] => []
  | _, skip + 1, c :: rest => spansFrom form (isWord c) skip rest
  | afterWord, 0, c :: rest =>
    match if afterWord then none else Immediate.read form (c :: rest) with
    | some m => .immediate m :: spansFrom form (isWord c) (m.chars.length - 1) rest
    | none => .other c :: spansFrom form (isWord c) 0 rest

/-- A text cut into the immediates of a form and single characters. -/
def spans (form : ImmediateForm) (cs : List Char) : List Span := spansFrom form false 0 cs

/-- The immediates of a form, from left to right. -/
def immediates (form : ImmediateForm) (cs : List Char) : List Immediate :=
  (spans form cs).filterMap fun
    | .immediate m => some m
    | .other _ => none

/-- The text with the immediates of a form hidden that `keep` does not keep. -/
def hideImmediates (form : ImmediateForm) (keep : List Char → Bool) (placeholder : List Char)
    (cs : List Char) : List Char :=
  (spans form cs).flatMap fun
    | .immediate m => if keep m.value then m.chars else m.hidden placeholder
    | .other c => [c]

end InstrGraph.Text
