import InstrGraph.Text.Ranges

/-!
# Blanks

The white space characters of every script (property `White_Space`), and the operations that are
defined by them: cutting blanks off the ends of a text, and splitting a text into the words between
blanks.
-/

namespace InstrGraph.Text

/-- The white space characters. -/
def blankRanges : Ranges :=
  [(0x9, 0xD), (0x20, 0x20), (0x85, 0x85), (0xA0, 0xA0), (0x1680, 0x1680), (0x2000, 0x200A),
    (0x2028, 0x2029), (0x202F, 0x202F), (0x205F, 0x205F), (0x3000, 0x3000)]

/-- A white space character of any script. -/
def isBlank (c : Char) : Bool := blankRanges.contains c

/-- The text without the characters of a class at its end. -/
def trimEndOf (p : Char → Bool) (cs : List Char) : List Char :=
  cs.foldr (fun c rest => if rest.isEmpty && p c then [] else c :: rest) []

/-- The text without blanks at its end. -/
def trimEnd (cs : List Char) : List Char := trimEndOf isBlank cs

/-- The text without blanks at its beginning. -/
def trimStart (cs : List Char) : List Char := cs.dropWhile isBlank

/-- The text without blanks at either end. -/
def trim (cs : List Char) : List Char := trimEnd (trimStart cs)

/-- The maximal runs of characters that are not blank, with the run that is still open in front. -/
def wordsOpen : List Char → List Char × List (List Char)
  | [] => ([], [])
  | c :: rest =>
    let (run, runs) := wordsOpen rest
    if isBlank c then ([], if run.isEmpty then runs else run :: runs) else (c :: run, runs)

/-- The maximal runs of characters that are not blank, in order. -/
def words (cs : List Char) : List (List Char) :=
  let (run, runs) := wordsOpen cs
  if run.isEmpty then runs else run :: runs

/-- A character of the class is trimmed if all behind it is. -/
theorem trimEndOf_cons (p : Char → Bool) (c : Char) (cs : List Char) :
    trimEndOf p (c :: cs) =
      if (trimEndOf p cs).isEmpty && p c then [] else c :: trimEndOf p cs := rfl

/-- Trimming leaves no character of the class at the end. -/
theorem trimEndOf_getLast? (p : Char → Bool) (cs : List Char) :
    ∀ c, (trimEndOf p cs).getLast? = some c → p c = false := by
  induction cs with
  | nil => simp [trimEndOf]
  | cons a rest ih =>
    intro c h
    rw [trimEndOf_cons] at h
    split at h
    · simp at h
    · rename_i hcond
      cases hr : trimEndOf p rest with
      | nil => simp_all
      | cons b bs =>
        rw [hr] at h ih
        exact ih c (by simpa using h)

end InstrGraph.Text
