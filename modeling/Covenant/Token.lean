import Covenant.Tree.Span

/-! # Tokens -/

namespace Covenant

open Covenant.Tree

/-- What a token is; layout tokens carry no text. -/
inductive TokenKind where
  | name | number | string | op | newline | indent | dedent | stop
  deriving DecidableEq, Repr

/-- A token with its text and its place. -/
structure Token where
  kind : TokenKind
  text : String
  span : Span
  deriving DecidableEq, Repr

/-- Names that cannot be used as identifiers. -/
def keywords : List String :=
  ["False", "None", "True", "and", "as", "assert", "async", "await", "break", "class",
   "continue", "def", "del", "elif", "else", "except", "finally", "for", "from", "global",
   "if", "import", "in", "is", "lambda", "nonlocal", "not", "or", "pass", "raise", "return",
   "try", "while", "with", "yield"]

end Covenant
