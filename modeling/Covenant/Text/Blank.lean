/-! # Blanks and line boundaries

    Three notions are kept apart.

    * `isBlank` is the set of characters removed at both ends of a condition.
    * `isLineBoundary` is the larger set at which a text is cut into lines
      when it is indented.
    * `unifyNewlines` turns every carriage return, alone or before a line
      feed, into one line feed, as a reader of program text does first. -/

namespace Covenant.Text

/-- The blanks: ASCII controls 9 to 13 and 28 to 31, and Unicode's spaces. -/
def isBlank (c : Char) : Bool :=
  let n := c.toNat
  (9 ≤ n && n ≤ 13) || (28 ≤ n && n ≤ 32) || n == 0x85 || n == 0xA0 || n == 0x1680
    || (0x2000 ≤ n && n ≤ 0x200A) || n == 0x2028 || n == 0x2029 || n == 0x202F
    || n == 0x205F || n == 0x3000

/-- The characters that end a line of a text that is being laid out. -/
def isLineBoundary (c : Char) : Bool :=
  let n := c.toNat
  (10 ≤ n && n ≤ 13) || (28 ≤ n && n ≤ 30) || n == 0x85 || n == 0x2028 || n == 0x2029

/-- Every character for which core has a name for whitespace is a blank. -/
theorem isBlank_of_isWhitespace {c : Char} (h : c.isWhitespace = true) : isBlank c = true := by
  simp only [Char.isWhitespace, Bool.or_eq_true, decide_eq_true_eq] at h
  rcases h with ((h | h) | h) | h <;> subst h <;> decide

/-- Drops from the end what satisfies the test. -/
def dropEndWhile (p : Char → Bool) (cs : List Char) : List Char :=
  (cs.reverse.dropWhile p).reverse

/-- Removes the characters satisfying the test from both ends. -/
def trimBy (p : Char → Bool) (cs : List Char) : List Char :=
  dropEndWhile p (cs.dropWhile p)

/-- A text without the blanks at its two ends. -/
def strip (s : String) : String :=
  String.ofList (trimBy isBlank s.toList)

/-- A text without the characters satisfying the test at its start. -/
def stripStartWhile (p : Char → Bool) (s : String) : String :=
  String.ofList (s.toList.dropWhile p)

/-- A text without the characters satisfying the test at both ends. -/
def stripWhile (p : Char → Bool) (s : String) : String :=
  String.ofList (trimBy p s.toList)

/-- Each carriage return, with the line feed after it if there is one, becomes a line feed. -/
def unifyNewlines : List Char → List Char
  | '\r' :: '\n' :: rest => '\n' :: unifyNewlines rest
  | '\r' :: rest => '\n' :: unifyNewlines rest
  | c :: rest => c :: unifyNewlines rest
  | [] => []

/-- Cuts after every line boundary and keeps it; a carriage return and the line feed
    after it are one boundary.  The first list is the line read so far, reversed. -/
def cutLines (boundary : Char → Bool) : List Char → List Char → List (List Char)
  | [], [] => []
  | line, [] => [line.reverse]
  | line, '\r' :: '\n' :: rest => ('\n' :: '\r' :: line).reverse :: cutLines boundary [] rest
  | line, c :: rest =>
    if boundary c then (c :: line).reverse :: cutLines boundary [] rest
    else cutLines boundary (c :: line) rest

/-- The lines of a text with their ends, at every Unicode line boundary. -/
def layoutLines (cs : List Char) : List (List Char) :=
  cutLines isLineBoundary [] cs

/-- The lines of a program text with their ends: only carriage return and line feed cut. -/
def sourceLines (cs : List Char) : List (List Char) :=
  cutLines (fun c => c == '\n' || c == '\r') [] cs

end Covenant.Text
