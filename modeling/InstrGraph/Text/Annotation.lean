import InstrGraph.Text.Blank

/-!
# Annotations behind an instruction

The text of an instruction may end with attachments such as `, !dbg !12`. The first comma that is
followed by `!`, blanks between them or not, opens the attachments. `stripAnnotations` drops them,
then the blanks before them, and last the double quotes of quoted names.
-/

namespace InstrGraph.Text

/-- The text begins with `!`, after blanks or at once. -/
def opensAttachment (cs : List Char) : Bool :=
  match cs.dropWhile isBlank with
  | '!' :: _ => true
  | _ => false

/-- The text before its first attachment. -/
def cutAttachments : List Char → List Char
  | [] => []
  | c :: rest => if c == ',' && opensAttachment rest then [] else c :: cutAttachments rest

/-- The text without attachments, without blanks at its end and without double quotes. -/
def stripAnnotations (cs : List Char) : List Char :=
  (trimEnd (cutAttachments cs)).filter (· ≠ '"')

/-- No double quote is left. -/
theorem quote_not_mem_stripAnnotations (cs : List Char) : '"' ∉ stripAnnotations cs := by
  simp [stripAnnotations]

end InstrGraph.Text
