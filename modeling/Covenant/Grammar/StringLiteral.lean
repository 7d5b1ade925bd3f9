import Covenant.Grammar.Cursor
import Covenant.Text.Quoted
import Covenant.Token.Lexer
import Covenant.Tree.Expr

/-! # String literals — text, bytes and interpolation

    Adjacent string tokens form one literal.  Plain pieces are read by undoing
    their escapes; in an interpolated piece, the text between braces is an
    expression, which is read by the reader handed in, at its true place.

    Every node made for a literal has the span of the whole literal, except for
    layouts of values, which stay within their token. -/

namespace Covenant.Grammar

open Text Token Covenant.Tree

/-- A piece of an interpolated text. -/
inductive Piece where
  | text (cs : List Char)
  | value (e : Expr)

/-- A string token taken apart: its marks, and its inside. -/
structure StringToken where
  marks : List Char
  body : List Char
  /-- The place where the inside starts. -/
  bodyStart : Pos
  span : Span

/-- Takes a string token apart. -/
def StringToken.ofToken (t : Token) : StringToken :=
  let cs := t.text.toList
  let marks := cs.takeWhile fun c => c != '\'' && c != '"'
  let quoted := cs.drop marks.length
  let width := match quoted with
    | q :: r :: s :: _ :: _ => if q = r ∧ r = s then 3 else 1
    | _ => 1
  let body := (quoted.drop width).take (quoted.length - 2 * width)
  ⟨marks.map Char.toLower, body, t.span.start.advanceAll (marks ++ quoted.take width), t.span⟩

/-- Whether escapes are left alone. -/
def StringToken.isRaw (t : StringToken) : Bool := t.marks.contains 'r'

/-- Whether the literal is of bytes. -/
def StringToken.isBytes (t : StringToken) : Bool := t.marks.contains 'b'

/-- Whether expressions may be written between braces. -/
def StringToken.isFormat (t : StringToken) : Bool := t.marks.contains 'f'

/-! ## Interpolation -/

/-- What a run of plain text ends at. -/
structure PlainRun where
  taken : List Char
  /-- The run ends after a doubled brace, and text goes on. -/
  goesOn : Bool
  pos : Pos
  rest : List Char

/-- Puts characters in front of a run. -/
def PlainRun.pushAll (cs : List Char) (r : PlainRun) : PlainRun :=
  { r with taken := cs ++ r.taken }

/-- Plain text up to a brace.  At the outermost level a doubled brace stands for itself, and
    a closing brace alone is refused. -/
def plainRun (raw outermost : Bool) : Pos → List Char → Option PlainRun
  | p, [] => some ⟨[], false, p, []⟩
  | p, '\\' :: c :: rest =>
    if raw = true ∨ c = '{' ∨ c = '}' then
      (plainRun raw outermost (p.advance '\\') (c :: rest)).map (PlainRun.pushAll ['\\'])
    else
      (plainRun raw outermost ((p.advance '\\').advance c) rest).map (PlainRun.pushAll ['\\', c])
  | p, c :: rest =>
    if c = '{' ∨ c = '}' then
      if outermost = true ∧ rest.head? = some c then
        some ⟨[c], true, (p.advance c).advance c, rest.drop 1⟩
      else if outermost = true ∧ c = '}' then none
      else some ⟨[], false, p, c :: rest⟩
    else (plainRun raw outermost (p.advance c) rest).map (PlainRun.pushAll [c])

/-- Whether a character alone ends an embedded expression, outside of brackets. -/
def endsEmbedded (c : Char) : Bool := c = '!' || c = ':' || c = '}' || c = '='

/-- The text of an embedded expression and what follows it.  Brackets and quotes are
    matched; a backslash and a comment are refused. -/
def embeddedText : List Char → Option (Char × Bool) → List Char → Option (List Char × List Char)
  | _, _, [] => none
  | due, some (q, triple), c :: rest =>
    if c = '\\' then none
    else if c = q then
      match triple, rest with
      | true, d :: e :: more =>
        if d = q ∧ e = q then
          (embeddedText due none more).map fun t => (c :: d :: e :: t.1, t.2)
        else (embeddedText due (some (q, true)) (d :: e :: more)).map fun t => (c :: t.1, t.2)
      | true, rest => (embeddedText due (some (q, true)) rest).map fun t => (c :: t.1, t.2)
      | false, rest => (embeddedText due none rest).map fun t => (c :: t.1, t.2)
    else (embeddedText due (some (q, triple)) rest).map fun t => (c :: t.1, t.2)
  | due, none, c :: rest =>
    if c = '\\' ∨ c = '#' then none
    else if c = '\'' ∨ c = '"' then
      match rest with
      | d :: e :: more =>
        if d = c ∧ e = c then
          (embeddedText due (some (c, true)) more).map fun t => (c :: d :: e :: t.1, t.2)
        else (embeddedText due (some (c, false)) (d :: e :: more)).map fun t => (c :: t.1, t.2)
      | rest => (embeddedText due (some (c, false)) rest).map fun t => (c :: t.1, t.2)
    else
      match closerOf c with
      | some closer =>
        if due.length < maxDepth then
          (embeddedText (closer :: due) none rest).map fun t => (c :: t.1, t.2)
        else none
      | none =>
        if due.isEmpty ∧ rest.head? = some '=' ∧ (c = '!' ∨ c = '=' ∨ c = '<' ∨ c = '>') then
          match rest with
          | d :: more => (embeddedText due none more).map fun t => (c :: d :: t.1, t.2)
          | [] => none
        else if due.isEmpty ∧ endsEmbedded c then some ([], c :: rest)
        else if c = ')' ∨ c = ']' ∨ c = '}' then
          match due with
          | d :: outer =>
            if d = c then (embeddedText outer none rest).map fun t => (c :: t.1, t.2) else none
          | [] => none
        else (embeddedText due none rest).map fun t => (c :: t.1, t.2)

/-- The blanks that may stand alone around an embedded expression. -/
def isEmbeddedBlank (c : Char) : Bool := c = ' ' || c = '\t' || c = '\n' || c = '\x0c'

/-- The blanks after the sign that asks for the expression's own text. -/
def isSpaceChar (c : Char) : Bool := c = ' ' || (9 ≤ c.toNat && c.toNat ≤ 13)

/-- Reads an embedded expression from its tokens. -/
abbrev EmbeddedReader := Reader Expr

/-- A reader of the pieces of a text from a place on: the pieces, the place after them, and
    what follows. -/
abbrev PieceReader := Pos → List Char → Option (List Piece × Pos × List Char)

/-- A value's own text with the sign that asks for it and the blanks behind, if it is asked
    for. -/
def ownText (text : List Char) (p : Pos) : List Char → List Piece × Pos × List Char
  | '=' :: more =>
    let blanks := more.takeWhile isSpaceChar
    ([.text (text ++ '=' :: blanks)], p.advanceAll ('=' :: blanks), more.drop blanks.length)
  | rest => ([], p, rest)

/-- The conversion of a value, if there is one. -/
def conversionAt (p : Pos) : List Char → Option (Option Char × Pos × List Char)
  | '!' :: c :: more =>
    if c = 's' ∨ c = 'r' ∨ c = 'a' then some (some c, p.advanceAll ['!', c], more) else none
  | '!' :: _ => none
  | rest => some (none, p, rest)

/-- The layout of a value, if there is one, which a nested reader reads. -/
def layoutAt (layout : PieceReader) (join : List Piece → Expr) (p : Pos) :
    List Char → Option (List Expr × Pos × List Char)
  | ':' :: more => do
    let (pieces, p, rest) ← layout (p.advance ':') more
    some ([join pieces], p, rest)
  | rest => some ([], p, rest)

/-- The value between braces: the expression's own text if it is asked for, the expression,
    its conversion and its layout. -/
def embeddedValue (whole : Span) (read : EmbeddedReader) (layout : PieceReader)
    (join : List Piece → Expr) : PieceReader
  | p, '{' :: cs => do
    let (text, rest) ← embeddedText [] none cs
    let tokens ← if text.all isEmbeddedBlank then none else lexBracketed p text
    let (e, _) ← read.run ⟨tokens, p⟩
    let (own, p, rest) := ownText text ((p.advance '{').advanceAll text) rest
    let (conversion, p, rest) ← conversionAt p rest
    let (spec, p, rest) ← layoutAt layout join p rest
    match rest with
    | '}' :: more =>
      let conversion := if !own.isEmpty && spec.isEmpty && conversion.isNone then some 'r'
        else conversion
      some (own ++ [.value (.compound whole (.formattedValue conversion) (e :: spec))],
        p.advance '}', more)
    | _ => none
  | _, _ => none

/-- A text without its escapes, which a raw text does not have. -/
def unescaped (raw : Bool) (cs : List Char) : Option (List Char) :=
  if raw then some cs else readText cs

/-- Plain runs and values in turn; inside a layout they end at a closing brace. -/
def pieceLoop (raw outermost : Bool) (value : PieceReader) : Nat → PieceReader
  | 0, _, _ => none
  | fuel + 1, p, cs => do
    let run ← plainRun raw outermost p cs
    let text ← unescaped raw run.taken
    let first := if text.isEmpty then [] else [Piece.text text]
    if run.goesOn then
      let (more, p, rest) ← pieceLoop raw outermost value fuel run.pos run.rest
      some (first ++ more, p, rest)
    else
      match run.rest with
      | '{' :: _ =>
        let (v, p, rest) ← value run.pos run.rest
        let (more, p, rest) ← pieceLoop raw outermost value fuel p rest
        some (first ++ v ++ more, p, rest)
      | '}' :: _ => some (first, run.pos, run.rest)
      | _ => if outermost then some (first, run.pos, []) else none

/-- Joins neighbouring texts. -/
def mergeTexts : List Piece → List Piece
  | .text a :: rest =>
    match mergeTexts rest with
    | .text b :: more => .text (a ++ b) :: more
    | merged => .text a :: merged
  | p :: rest => p :: mergeTexts rest
  | [] => []

/-- The expressions of pieces; a text that stands last has a span of its own. -/
def pieceExprs (whole last : Span) (marked : Bool) : List Piece → List Expr
  | [] => []
  | [.text cs] => [.constant last (.str (String.ofList cs) marked)]
  | .text cs :: ps =>
    .constant whole (.str (String.ofList cs) marked) :: pieceExprs whole last marked ps
  | .value e :: ps => e :: pieceExprs whole last marked ps

/-- The expression of an interpolated text, or of a layout in one, which together with its
    last text spans only its own token. -/
def joinPieces (whole own : Span) (marked : Bool) (ps : List Piece) : Expr :=
  .compound own .joinedStr (pieceExprs whole own marked (mergeTexts ps))

/-- The pieces of an interpolated text in which values may nest this deep. -/
def formatPieces (whole own : Span) (raw outermost : Bool) (read : EmbeddedReader) :
    Nat → PieceReader
  | 0, p, cs => pieceLoop raw outermost (fun _ _ => none) (cs.length + 1) p cs
  | depth + 1, p, cs =>
    pieceLoop raw outermost
      (embeddedValue whole read (formatPieces whole own raw false read depth)
        (joinPieces whole own false))
      (cs.length + 1) p cs

/-- How deep values may nest in layouts of values. -/
def maxNesting : Nat := 2

/-- The pieces of one string token. -/
def tokenPieces (whole : Span) (read : EmbeddedReader) (t : StringToken) :
    Option (List Piece) :=
  if t.isFormat then do
    let (ps, _, rest) ← formatPieces whole t.span t.isRaw true read maxNesting t.bodyStart t.body
    if rest.isEmpty then some ps else none
  else do
    let text ← unescaped t.isRaw t.body
    some (if text.isEmpty then [] else [.text text])

/-- The expression that adjacent string tokens form; bytes do not mix with text. -/
def concatenated (read : EmbeddedReader) (tokens : List Token) : Option Expr := do
  let first ← tokens.head?
  let last ← tokens.getLast?
  let whole : Span := ⟨first.span.start, last.span.stop⟩
  let parts := tokens.map StringToken.ofToken
  let marked := first.text.startsWith "u"
  if parts.all StringToken.isBytes then
    let bytes ← parts.mapM fun t =>
      if t.isRaw then (if t.body.all (·.toNat < 128) then
        some (t.body.map fun c => c.toNat.toUInt8) else none)
      else readBytes t.body
    some (.constant whole (.bytes bytes.flatten))
  else if parts.any StringToken.isBytes then none
  else
    let pieces ← parts.mapM (tokenPieces whole read)
    if parts.any StringToken.isFormat then some (joinPieces whole whole marked pieces.flatten)
    else
      match mergeTexts pieces.flatten with
      | .text cs :: _ => some (.constant whole (.str (String.ofList cs) marked))
      | _ => some (.constant whole (.str "" marked))

end Covenant.Grammar
