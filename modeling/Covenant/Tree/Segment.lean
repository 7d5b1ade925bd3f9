import Covenant.Text.Blank
import Covenant.Tree.Span

/-! # Segments — the text a span covers -/

namespace Covenant.Tree

open Text

/-- Drops characters until so many bytes are gone. -/
def dropBytes : Nat → List Char → List Char
  | 0, cs => cs
  | _ + 1, [] => []
  | n + 1, c :: cs => dropBytes (n + 1 - c.utf8Size) cs

/-- Keeps characters until so many bytes are taken. -/
def takeBytes : Nat → List Char → List Char
  | 0, _ => []
  | _ + 1, [] => []
  | n + 1, c :: cs => c :: takeBytes (n + 1 - c.utf8Size) cs

/-- The stretch of a text that a span covers, with the ends of lines as they are written. -/
def segment (text : List Char) (s : Span) : List Char :=
  let lines := sourceLines text
  let line (i : Nat) : List Char := lines.getD (i - 1) []
  if s.start.line = s.stop.line then
    takeBytes (s.stop.col - s.start.col) (dropBytes s.start.col (line s.start.line))
  else
    dropBytes s.start.col (line s.start.line)
      ++ ((lines.drop s.start.line).take (s.stop.line - s.start.line - 1)).flatten
      ++ takeBytes s.stop.col (line s.stop.line)

end Covenant.Tree
