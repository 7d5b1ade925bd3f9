import Covenant.Token

/-! # Cursor — reading tokens with backtracking

    A reader takes tokens from the front of a list and may fail; on failure
    nothing has been taken, so that the next alternative starts at the same
    place.  The cursor remembers where the last token that is not layout
    ended, which is where the span of whatever has been read ends. -/

namespace Covenant.Grammar

open Covenant.Tree

/-- The tokens that are left, and the end of the last one read. -/
structure Cursor where
  tokens : List Token
  lastStop : Pos

/-- A reader of tokens. -/
abbrev Reader (α : Type) := StateT Cursor Option α

namespace Reader

/-- The next token. -/
def peek : Reader Token := do
  match (← get).tokens with
  | t :: _ => pure t
  | [] => failure

/-- Takes the next token. -/
def next : Reader Token := fun c =>
  match c.tokens with
  | t :: ts =>
    let layout := t.kind = .newline ∨ t.kind = .indent ∨ t.kind = .dedent ∨ t.kind = .stop
    some (t, ⟨ts, if layout then c.lastStop else t.span.stop⟩)
  | [] => none

/-- Takes the next token if it passes the test. -/
def nextIf (test : Token → Bool) : Reader Token := do
  let t ← next
  if test t then pure t else failure

/-- Whether the next token passes the test. -/
def sees (test : Token → Bool) : Reader Bool := fun c =>
  some ((match c.tokens with
    | t :: _ => test t
    | [] => false), c)

/-- Whether the token is this operator. -/
def isOp (o : String) (t : Token) : Bool := t.kind = .op && t.text == o

/-- Whether the token is this keyword or soft keyword. -/
def isWord (w : String) (t : Token) : Bool := t.kind = .name && t.text == w

/-- Whether the token is an identifier. -/
def isIdentifier (t : Token) : Bool := t.kind = .name && !keywords.contains t.text

/-- Takes an operator. -/
def op (o : String) : Reader Unit := do
  let _ ← nextIf (isOp o)

/-- Takes a keyword. -/
def word (w : String) : Reader Unit := do
  let _ ← nextIf (isWord w)

/-- Takes an identifier. -/
def identifier : Reader Token := nextIf isIdentifier

/-- Takes a layout token. -/
def layout (kind : TokenKind) : Reader Unit := do
  let _ ← nextIf (·.kind = kind)

/-- The next token is this operator. -/
def seesOp (o : String) : Reader Bool := sees (isOp o)

/-- The next token is this keyword. -/
def seesWord (w : String) : Reader Bool := sees (isWord w)

/-- Takes the operator if it is next, and says whether it was. -/
def takesOp (o : String) : Reader Bool := do
  if ← seesOp o then
    op o
    pure true
  else pure false

/-- Takes the keyword if it is next, and says whether it was. -/
def takesWord (w : String) : Reader Bool := do
  if ← seesWord w then
    word w
    pure true
  else pure false

/-- Fails unless the condition holds. -/
def require (b : Bool) : Reader Unit := if b then pure () else failure

/-- The place of the next token. -/
def here : Reader Pos := do
  pure (← peek).span.start

/-- The span from a place to the end of what has been read. -/
def spanFrom (start : Pos) : Reader Span := do
  pure ⟨start, (← get).lastStop⟩

/-- The first of two readers that succeeds. -/
def orElse {α : Type} (p q : Reader α) : Reader α := fun c => (p c).or (q c)

/-- What the reader gives, or nothing if it fails. -/
def maybe {α : Type} (p : Reader α) : Reader (Option α) := fun c =>
  match p c with
  | some (a, c') => some (some a, c')
  | none => some (none, c)

/-- Succeeds where the reader does, without taking anything. -/
def ahead {α : Type} (p : Reader α) : Reader Bool := fun c => some ((p c).isSome, c)

/-- Repeats a step on a value until it gives nothing. -/
def iterate {α : Type} (step : α → Reader (Option α)) : Nat → α → Reader α
  | 0, a => pure a
  | fuel + 1, a => do
    match ← step a with
    | some a' => iterate step fuel a'
    | none => pure a

/-- Repeats a step as often as there are tokens left. -/
def whileSome {α : Type} (step : α → Reader (Option α)) (a : α) : Reader α := do
  iterate step (← get).tokens.length a

/-- As many items as there are. -/
def many {α : Type} (p : Reader α) : Reader (List α) := do
  let items ← whileSome (fun (acc : List α) => do
    match ← maybe p with
    | some a => pure (some (a :: acc))
    | none => pure none) []
  pure items.reverse

/-- One item or more. -/
def many1 {α : Type} (p : Reader α) : Reader (List α) := do
  let a ← p
  pure (a :: (← many p))

/-- Items between separators, at least one; a separator is taken only before an item. -/
def separated {α : Type} (separator : String) (p : Reader α) : Reader (List α) := do
  let a ← p
  pure (a :: (← many (do
    op separator
    p)))

/-- Items between commas, at least one, and whether a comma followed the last one. -/
def commaList {α : Type} (p : Reader α) : Reader (List α × Bool) := do
  let items ← separated "," p
  pure (items, ← takesOp ",")

end Reader

end Covenant.Grammar
