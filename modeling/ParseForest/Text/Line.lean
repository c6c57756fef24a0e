/-! # Lines

How a sequence of units (characters of a text, bytes of a file) divides into lines.  A line ends
at a line feed; one carriage return directly before the line feed belongs to the line's end.
What follows the last line feed is a line only if it is not empty, and keeps a carriage return
at its end, since no line feed follows it. -/

namespace ParseForest.Text

variable {α : Type} [DecidableEq α]

/-- A line without the carriage return that stands directly before its line feed. -/
def dropReturn (ret : α) (line : List α) : List α :=
  if line.getLast? = some ret then line.dropLast else line

/-- The lines, given the pieces between line feeds. -/
def linesOfPieces (ret : α) : List (List α) → List (List α)
  | [] => []
  | [last] => if last.isEmpty then [] else [last]
  | piece :: next :: rest => dropReturn ret piece :: linesOfPieces ret (next :: rest)

/-- The lines of a sequence of units, where `feed` ends a line and `ret` may stand before it. -/
def linesBy (feed ret : α) (units : List α) : List (List α) :=
  linesOfPieces ret (units.splitOn feed)

/-- The lines of a text. -/
def lines (text : String) : List String :=
  (linesBy '\n' '\r' text.toList).map String.ofList

/-- The lines of a sequence of bytes. -/
def byteLines (bytes : List UInt8) : List (List UInt8) :=
  linesBy 10 13 bytes

end ParseForest.Text
