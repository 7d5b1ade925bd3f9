/-! # Spans — places in a program text

    A place is a line, counted from one, and a column in UTF-8 bytes, counted
    from zero. -/

namespace Covenant.Tree

/-- A place between two characters of a text. -/
structure Pos where
  line : Nat
  col : Nat
  deriving DecidableEq, Repr, Inhabited

/-- The place where a text starts. -/
def Pos.start : Pos := ⟨1, 0⟩

/-- The place after one more character. -/
def Pos.advance (p : Pos) (c : Char) : Pos :=
  if c = '\n' then ⟨p.line + 1, 0⟩ else ⟨p.line, p.col + c.utf8Size⟩

/-- The place after some more characters. -/
def Pos.advanceAll (p : Pos) (cs : List Char) : Pos :=
  cs.foldl Pos.advance p

/-- Reading order of places. -/
def Pos.before (p q : Pos) : Bool :=
  p.line < q.line || (p.line == q.line && p.col < q.col)

/-- The stretch of text a piece of a tree was read from. -/
structure Span where
  start : Pos
  stop : Pos
  deriving DecidableEq, Repr, Inhabited

/-- Advancing over a concatenation is advancing twice. -/
theorem Pos.advanceAll_append (p : Pos) (xs ys : List Char) :
    p.advanceAll (xs ++ ys) = (p.advanceAll xs).advanceAll ys := by
  simp [advanceAll]

end Covenant.Tree
