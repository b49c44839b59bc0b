import InstrGraph.Text.Hex

/-!
# Lines of the log

An error is reported as a line with its level, its message and the function it is about. A message
quotes names and paths, which may hold anything, so the characters that steer a terminal are written
as escapes there. Line breaks are not among them: a message may take several lines.
-/

namespace InstrGraph.CommandLine

/-- A character of a message, or its escape. -/
def logChar (c : Char) : List Char :=
  let n := c.toNat
  if [0x07, 0x08, 0x0C, 0x1B, 0x7F].contains n then '\\' :: 'x' :: Text.hexDigits 2 n
  else if 0x80 ≤ n && n ≤ 0x9F then ['\\', 'u', '\x7b'] ++ Text.hexDigits 2 n ++ ['\x7d']
  else [c]

/-- The line for an error with a message. -/
def errorLine (message : String) : String :=
  "ERROR " ++ String.ofList (message.toList.flatMap logChar)

/-- The line for an error of a function, whose name stands behind the message as it is. -/
def functionErrorLine (name message : String) : String :=
  errorLine message ++ " function=" ++ name

end InstrGraph.CommandLine
