import Covenant.Text.Blank
import Covenant.Token
import Covenant.Token.Number

/-! # Lexer — from characters to tokens

    The lexer walks over a text whose newlines are line feeds.

    * Inside brackets, layout is ignored; outside, the indentation of each
      line that is not blank opens and closes blocks.
    * String literals are kept as written, with their marks and quotes.
    * The walk ends in a `stop` token; a text that has no tokens is `none`. -/

namespace Covenant.Token

open Text Covenant.Tree

/-- An opened bracket is closed by its partner. -/
def closerOf : Char → Option Char
  | '(' => some ')'
  | '[' => some ']'
  | '{' => some '}'
  | _ => none

/-- How deep brackets may nest. -/
def maxDepth : Nat := 200

/-- How deep blocks may nest. -/
def maxIndents : Nat := 100

/-- Operators of three characters, then of two, then of one. -/
def operators : List String :=
  ["**=", "//=", "<<=", ">>=", "...",
   "**", "//", "<<", ">>", "<=", ">=", "==", "!=", "->", "+=", "-=", "*=", "/=", "%=", "&=",
   "|=", "^=", "@=", ":=", "<>",
   "+", "-", "*", "/", "%", "@", "&", "|", "^", "~", "<", ">", "(", ")", "[", "]", "\x7b", "\x7d",
   ",", ":", ".", ";", "="]

/-- The first operator of the list that the text starts with. -/
def scanOperator (cs : List Char) : Option String :=
  operators.find? fun o => o.toList.isPrefixOf cs

/-- Which marks of a string literal have been seen. -/
structure Marks where
  bytes : Bool := false
  unicode : Bool := false
  raw : Bool := false
  format : Bool := false

/-- One more mark, if it may follow those seen. -/
def Marks.add (m : Marks) (c : Char) : Option Marks :=
  let c := c.toLower
  if c = 'b' ∧ ¬ (m.bytes ∨ m.unicode ∨ m.format) then some { m with bytes := true }
  else if c = 'u' ∧ ¬ (m.bytes ∨ m.unicode ∨ m.raw ∨ m.format) then some { m with unicode := true }
  else if c = 'r' ∧ ¬ (m.raw ∨ m.unicode) then some { m with raw := true }
  else if c = 'f' ∧ ¬ (m.format ∨ m.bytes ∨ m.unicode) then some { m with format := true }
  else none

/-- The marks in front of a quote, if that is what the text starts with. -/
def scanMarks : Marks → List Char → Option Cut
  | _, [] => none
  | m, c :: rest =>
    if c = '\'' ∨ c = '"' then some ([], c :: rest)
    else (m.add c).bind fun m' => (scanMarks m' rest).map (Cut.push c)

/-- The inside of a string literal with its closing quotes. -/
def scanQuoted (quote : Char) (triple : Bool) : List Char → Option Cut
  | [] => none
  | '\\' :: c :: rest => (scanQuoted quote triple rest).map (Cut.pushAll ['\\', c])
  | c :: rest =>
    if c = quote then
      if triple then
        match rest with
        | d :: e :: more =>
          if d = quote ∧ e = quote then some ([c, d, e], more)
          else (scanQuoted quote triple rest).map (Cut.push c)
        | _ => none
      else some ([c], rest)
    else if c = '\n' ∧ triple = false then none
    else (scanQuoted quote triple rest).map (Cut.push c)

/-- A string literal after its marks. -/
def scanString : List Char → Option Cut
  | q :: r :: s :: rest =>
    if r = q ∧ s = q then (scanQuoted q true rest).map (Cut.pushAll [q, r, s])
    else if r = q then some ([q, r], s :: rest)
    else (scanQuoted q false (r :: s :: rest)).map (Cut.push q)
  | [q, r] => if r = q then some ([q, r], []) else none
  | _ => none

/-- The indentation of a line: its column with tabs to multiples of eight, its column with
    every tab counted as one, and where the line's content starts.  A column fixed before a
    continued line stays. -/
def measureIndent : Nat → Nat → Option (Nat × Nat) → Pos → List Char →
    Option (Nat × Nat × Pos × List Char)
  | col, alt, fixed, p, ' ' :: rest => measureIndent (col + 1) (alt + 1) fixed (p.advance ' ') rest
  | col, alt, fixed, p, '\t' :: rest =>
    measureIndent ((col / 8 + 1) * 8) (alt + 1) fixed (p.advance '\t') rest
  | _, _, fixed, p, '\x0c' :: rest => measureIndent 0 0 fixed (p.advance '\x0c') rest
  | col, alt, fixed, p, '\\' :: '\n' :: rest =>
    if rest.isEmpty then none
    else
      let fixed := match fixed with
        | some f => if f.1 = 0 then some (col, alt) else some f
        | none => some (col, alt)
      measureIndent col alt fixed (p.advance '\n') rest
  | col, alt, fixed, p, cs =>
    match fixed with
    | some f => if f.1 = 0 then some (col, alt, p, cs) else some (f.1, f.2, p, cs)
    | none => some (col, alt, p, cs)

/-- A layout token at a place. -/
def layoutToken (kind : TokenKind) (p : Pos) : Token := ⟨kind, "", ⟨p, p⟩⟩

/-- Closes blocks down to a column; the column has to be that of an open block. -/
def dedentTo (col alt : Nat) (p : Pos) :
    List (Nat × Nat) → Option (List Token × List (Nat × Nat))
  | [] => none
  | (c, a) :: outer =>
    if col < c then (dedentTo col alt p outer).map fun r => (layoutToken .dedent p :: r.1, r.2)
    else if col = c ∧ alt = a then some ([], (c, a) :: outer)
    else none

/-- The layout tokens that a line's indentation gives, and the open blocks after it. -/
def indentTo (col alt : Nat) (p : Pos) (indents : List (Nat × Nat)) :
    Option (List Token × List (Nat × Nat)) :=
  match indents with
  | [] => none
  | (c, a) :: _ =>
    if c < col then
      if a < alt ∧ indents.length < maxIndents then
        some ([layoutToken .indent p], (col, alt) :: indents)
      else none
    else dedentTo col alt p indents

/-- Where the lexer stands. -/
structure Place where
  pos : Pos
  /-- The closing brackets that are due, innermost first. -/
  brackets : List Char
  /-- The columns of the open blocks, innermost first. -/
  indents : List (Nat × Nat)
  /-- At the start of a line. -/
  fresh : Bool
  /-- No token has been seen on this line. -/
  blank : Bool

/-- What one step of the lexer gives: tokens, the place after them, the remaining text. -/
abbrev Advance := List Token × Place × List Char

/-- One token from the characters taken. -/
def Place.take (p : Place) (kind : TokenKind) (t : Cut) : Advance :=
  let stop := p.pos.advanceAll t.1
  ([⟨kind, String.ofList t.1, ⟨p.pos, stop⟩⟩], { p with pos := stop, blank := false }, t.2)

/-- Passes over one character that is no token. -/
def Place.skip (p : Place) (c : Char) (rest : List Char) : Advance :=
  ([], { p with pos := p.pos.advance c }, rest)

/-- A bracket opens or closes; other operators leave the brackets alone. -/
def Place.bracket (p : Place) (o : Char) : Option Place :=
  match closerOf o with
  | some closer =>
    if p.brackets.length < maxDepth then some { p with brackets := closer :: p.brackets } else none
  | none =>
    if o = ')' ∨ o = ']' ∨ o = '}' then
      match p.brackets with
      | due :: outer => if due = o then some { p with brackets := outer } else none
      | [] => none
    else some p

/-- A name, or a string literal with marks. -/
def Place.word (p : Place) (cs : List Char) : Option Advance :=
  match scanMarks {} cs with
  | some (marks, rest) => (scanString rest).map fun t => p.take .string (t.pushAll marks)
  | none =>
    let t : Cut := (cs.takeWhile mayContinueName, cs.dropWhile mayContinueName)
    if isIdentifier t.1 then some (p.take .name t) else none

/-- One step within a line. -/
def Place.step (p : Place) : List Char → Option Advance
  | [] => none
  | c :: rest =>
    if c = ' ' ∨ c = '\t' ∨ c = '\x0c' then some (p.skip c rest)
    else if c = '#' then
      let comment := rest.takeWhile (· ≠ '\n')
      some ([], { p with pos := p.pos.advanceAll (c :: comment) }, rest.dropWhile (· ≠ '\n'))
    else if c = '\n' then
      let next := { p with pos := p.pos.advance c, fresh := true }
      if p.blank ∨ ¬ p.brackets.isEmpty then some ([], next, rest)
      else some ([layoutToken .newline p.pos], next, rest)
    else if c = '\\' then
      match rest with
      | '\n' :: more =>
        if more.isEmpty then none
        else some ([], { p with pos := (p.pos.advance c).advance '\n' }, more)
      | _ => none
    else if mayStartName c then p.word (c :: rest)
    else if c = '\'' ∨ c = '"' then (scanString (c :: rest)).map (p.take .string)
    else if c.isDigit ∨ (c = '.' ∧ (rest.head?.map Char.isDigit) = some true) then
      (scanNumber (c :: rest)).map (p.take .number)
    else
      (scanOperator (c :: rest)).bind fun o =>
        (p.bracket c).map fun p' => p'.take .op (o.toList, (c :: rest).drop o.length)

/-- One step at the start of a line: its indentation. -/
def Place.freshLine (p : Place) (cs : List Char) : Option Advance :=
  (measureIndent 0 0 none p.pos cs).bind fun (col, alt, pos, rest) =>
    let here := { p with pos := pos, fresh := false }
    match rest with
    | '#' :: _ | '\n' :: _ => some ([], { here with blank := true }, rest)
    | _ =>
      if p.brackets.isEmpty then
        (indentTo col alt pos p.indents).map fun r =>
          (r.1, { here with indents := r.2, blank := false }, rest)
      else some ([], { here with blank := false }, rest)

/-- All tokens from a place on.  Every step but the one at the start of a line takes a
    character, so twice the length of the text is enough fuel. -/
def lexFrom : Nat → Place → List Char → Option (List Token)
  | 0, _, _ => none
  | fuel + 1, p, cs =>
    if p.fresh then
      (p.freshLine cs).bind fun (ts, p', rest) => (lexFrom fuel p' rest).map (ts ++ ·)
    else if cs.isEmpty then
      if p.brackets.isEmpty then some [layoutToken .stop p.pos] else none
    else (p.step cs).bind fun (ts, p', rest) => (lexFrom fuel p' rest).map (ts ++ ·)

/-- The end of a text is the end of its last line. -/
def endLine (cs : List Char) : List Char :=
  if cs.getLast? = some '\n' then cs else cs ++ ['\n']

/-- The tokens of a whole text, whose newlines may be of any kind; the null character is
    refused wherever it stands. -/
def lex (text : List Char) : Option (List Token) :=
  if text.contains '\x00' then none
  else
    let cs := endLine (unifyNewlines text)
    lexFrom (2 * cs.length + 2) ⟨Pos.start, [], [(0, 0)], true, true⟩ cs

/-- The tokens of a stretch of text inside a larger one, put between round brackets that
    take the places of the characters before and after it. -/
def lexBracketed (at_ : Pos) (text : List Char) : Option (List Token) :=
  let cs := '(' :: text ++ [')']
  lexFrom (2 * cs.length + 2) ⟨at_, [], [(0, 0)], false, false⟩ cs

end Covenant.Token
