import Covenant.Grammar.Expression
import Covenant.Tree.Stmt

/-! # The grammar of patterns

    A pattern is a literal, a dotted name, a captured name, or a sequence, a
    mapping or a call of patterns; alternatives stand between bars, and `as`
    names what has been matched.  Patterns nest only inside brackets. -/

namespace Covenant.Grammar

open Covenant.Tree Reader

/-- A number without a sign. -/
def plainNumber : Reader Expr := do
  let t ← nextIf (·.kind = .number)
  match numberConstant t.text.toList with
  | some c => pure (.constant t.span c)
  | none => failure

/-- Whether an expression is a constant with only an imaginary part. -/
def isImaginary : Expr → Bool
  | .constant _ (.imaginary _) => true
  | _ => false

/-- A number that may have a minus sign. -/
def signedNumber : Reader Expr := do
  let start ← here
  if ← takesOp "-" then
    let e ← plainNumber
    pure (.compound (← spanFrom start) (.unaryOp .minus) [e])
  else plainNumber

/-- The operator of a sum of a real and an imaginary number. -/
def sumOp : Reader (Option BinOp) := do
  if ← takesOp "+" then pure (some .add)
  else if ← takesOp "-" then pure (some .sub)
  else pure none

/-- A number, or a real number with an imaginary one added or taken away. -/
def numberPattern : Reader Expr := do
  let start ← here
  let real ← signedNumber
  match ← sumOp with
  | some o =>
    let imaginary ← plainNumber
    let realPart := match real with
      | .compound _ _ [e] => e
      | e => e
    require (!isImaginary realPart && isImaginary imaginary)
    pure (.compound (← spanFrom start) (.binOp o) [real, imaginary])
  | none => pure real

/-- A literal: a number, a text or a constant word. -/
def literalExpression (l : Level) : Reader Expr := do
  let t ← peek
  match t.kind with
  | .string =>
    let ts ← many1 (nextIf (·.kind = .string))
    match concatenated (starExpressions l) ts with
    | some e => pure e
    | none => failure
  | .name =>
    match wordConstant t.text with
    | some c =>
      let _ ← next
      pure (.constant t.span c)
    | none => failure
  | _ => numberPattern

/-- A name with the fields that follow it. -/
def dottedName : Reader Expr := do
  let start ← here
  let t ← identifier
  whileSome (fun e => maybe (do
    op "."
    let n ← identifier
    pure (.field (← spanFrom start) e n.text .load))) (.name t.span t.text .load)

/-- A name to capture a value: no wildcard, and nothing that makes it another pattern. -/
def captureTarget : Reader String := do
  let t ← identifier
  require (t.text != "_" && !(← seesOp ".") && !(← seesOp "(") && !(← seesOp "="))
  pure t.text

/-- A starred name or wildcard. -/
def starPattern : Reader Pattern := do
  op "*"
  if ← takesWord "_" then pure (.star none) else do
    pure (.star (some (← captureTarget)))

/-- Patterns between commas, starred or not. -/
def sequenceItems (pattern : Reader Pattern) : Reader (List Pattern × Bool) :=
  commaList (do
    if ← seesOp "*" then starPattern else pattern)

/-- Round brackets: a group or a sequence. -/
def roundPattern (pattern : Reader Pattern) : Reader Pattern := do
  op "("
  if ← takesOp ")" then pure (.sequence [])
  else
    let (ps, comma) ← sequenceItems pattern
    op ")"
    match ps, comma with
    | [.star n], false =>
      let _ := n
      failure
    | [p], false => pure p
    | ps, _ => pure (.sequence ps)

/-- Square brackets: a sequence. -/
def squarePattern (pattern : Reader Pattern) : Reader Pattern := do
  op "["
  if ← takesOp "]" then pure (.sequence [])
  else
    let (ps, _) ← sequenceItems pattern
    op "]"
    pure (.sequence ps)

/-- An item of a mapping pattern: a key with its pattern, or a name for the rest. -/
def mappingPatternItem (l : Level) (pattern : Reader Pattern) :
    Reader ((Expr × Pattern) ⊕ String) := do
  if ← takesOp "**" then do
    pure (.inr (← captureTarget))
  else
    let key ← orElse (literalExpression l) (do
      let e ← dottedName
      match e with
      | .field .. => pure e
      | _ => failure)
    op ":"
    pure (.inl (key, ← pattern))

/-- Curly brackets: a mapping, whose rest comes last. -/
def curlyPattern (l : Level) (pattern : Reader Pattern) : Reader Pattern := do
  op "\x7b"
  if ← takesOp "\x7d" then pure (.mapping [] [] none)
  else
    let (items, _) ← commaList (mappingPatternItem l pattern)
    op "\x7d"
    let pairs := items.filterMap fun
      | .inl p => some p
      | .inr _ => none
    let rests := items.filterMap fun
      | .inl _ => none
      | .inr r => some r
    let lastIsRest := match items.getLast? with
      | some (.inr _) => true
      | _ => false
    require (rests.isEmpty || (rests.length == 1 && lastIsRest))
    pure (.mapping (pairs.map (·.1)) (pairs.map (·.2)) rests.head?)

/-- An argument of a call pattern, with its keyword if it has one. -/
def callPatternItem (pattern : Reader Pattern) : Reader (Option String × Pattern) := do
  if ← ahead (do
      let _ ← identifier
      op "=") then
    let n ← identifier
    op "="
    pure (some n.text, ← pattern)
  else do
    pure (none, ← pattern)

/-- Whether no item without a keyword follows one with a keyword. -/
def keywordsLast (items : List (Option String × Pattern)) : Bool :=
  (items.dropWhile (·.1.isNone)).all (·.1.isSome)

/-- A dotted name, a captured name, or the pattern of a call. -/
def namePattern (pattern : Reader Pattern) : Reader Pattern := do
  let e ← dottedName
  if ← takesOp "(" then
    if ← takesOp ")" then pure (.cls e [] [] [])
    else
      let (items, _) ← commaList (callPatternItem pattern)
      op ")"
      require (keywordsLast items)
      pure (.cls e ((items.filter (·.1.isNone)).map (·.2)) (items.filterMap (·.1))
        ((items.filter (·.1.isSome)).map (·.2)))
  else
    require (!(← seesOp "="))
    match e with
    | .name _ "_" _ => pure (.as none none)
    | .name _ n _ => pure (.as none (some n))
    | e => pure (.value e)

/-- A pattern without alternatives. -/
def closedPattern (l : Level) (pattern : Reader Pattern) : Reader Pattern := do
  let t ← peek
  match t.kind with
  | .op =>
    match t.text with
    | "(" => roundPattern pattern
    | "[" => squarePattern pattern
    | "\x7b" => curlyPattern l pattern
    | _ => do
      pure (.value (← literalExpression l))
  | .name =>
    match wordConstant t.text with
    | some c =>
      let _ ← next
      pure (.singleton (.constant t.span c))
    | none => namePattern pattern
  | _ => do
    pure (.value (← literalExpression l))

/-- A pattern, with as many levels of nesting as given. -/
def patternAt (l : Level) : Nat → Reader Pattern
  | 0 => failure
  | n + 1 => do
    let alternatives ← separated "|" (closedPattern l (patternAt l n))
    let p := match alternatives with
      | [p] => p
      | ps => .or ps
    if ← takesWord "as" then
      let name ← captureTarget
      pure (.as (some p) (some name))
    else pure p

/-- The pattern of a case: several with commas between them are a sequence. -/
def casePattern (l : Level) : Reader Pattern := do
  let (ps, comma) ← sequenceItems (patternAt l (Token.maxDepth + 1))
  match ps, comma with
  | [.star n], false =>
    let _ := n
    failure
  | [p], false => pure p
  | ps, _ => pure (.sequence ps)

end Covenant.Grammar
