import Covenant.Grammar.NumberLiteral
import Covenant.Grammar.StringLiteral

/-! # The grammar of expressions

    Each rule of the grammar is a reader.  A rule that nests refers to the
    rules one level further in through a `Level`; `level` ties the knot, and a
    level for every character of the text is enough, because every nesting
    takes at least one.

    Spans follow the text that has been read: from the first token of a form
    to the last, brackets included where they belong to the form. -/

namespace Covenant.Grammar

open Covenant.Tree Reader

/-- The rules that nest, one level further in. -/
structure Level where
  expression : Reader Expr
  disjunction : Reader Expr
  inversion : Reader Expr
  bitwiseOr : Reader Expr
  factor : Reader Expr

/-- The level at which nothing can be read. -/
def Level.none : Level := ⟨failure, failure, failure, failure, failure⟩

/-! ## Uses of an expression -/

/-- The same expression used as a target; only names, fields, items and lists of targets
    can be. -/
def Expr.asTarget (access : Access) (starAllowed : Bool) : Expr → Option Expr
  | .name s id _ => some (.name s id access)
  | .field s v n _ => some (.field s v n access)
  | .compound s (.subscript _) ps => some (.compound s (.subscript access) ps)
  | .compound s (.starred _) [e] =>
    if starAllowed then
      match e with
      | .compound _ (.starred _) _ => Option.none
      | _ => (asTarget access false e).map fun e => .compound s (.starred access) [e]
    else Option.none
  | .compound s (.tuple _) ps => (targets ps).map (.compound s (.tuple access))
  | .compound s (.list _) ps => (targets ps).map (.compound s (.list access))
  | _ => Option.none
where
  /-- The same expressions used as targets. -/
  targets : List Expr → Option (List Expr)
    | [] => some []
    | e :: es => do
      let e ← asTarget access (access != .delete) e
      let es ← targets es
      some (e :: es)

/-- Uses what has been read as a target, or fails. -/
def useAs (access : Access) (starAllowed : Bool) (e : Expr) : Reader Expr :=
  match Expr.asTarget access starAllowed e with
  | some e => pure e
  | Option.none => failure

/-! ## Lists and named expressions -/

/-- A single item stands for itself; with a comma, items are a tuple. -/
def tupleUnlessSingle (start : Pos) (items : List Expr × Bool) : Reader Expr := do
  match items with
  | ([e], false) => pure e
  | (es, _) => pure (.compound (← spanFrom start) (.tuple .load) es)

/-- An expression, or a name given a value on the way. -/
def namedExpression (l : Level) : Reader Expr := do
  let start ← here
  let e ← l.expression
  match e with
  | .name s id .load =>
    if (← seesOp ":=") && s.start = start then
      op ":="
      let v ← l.expression
      pure (.compound (← spanFrom start) .namedExpr [.name s id .store, v])
    else pure e
  | _ => pure e

/-- A starred operand. -/
def starred (operand : Reader Expr) : Reader Expr := do
  let start ← here
  op "*"
  let e ← operand
  pure (.compound (← spanFrom start) (.starred .load) [e])

/-- An item of a display: starred, or an expression that may be named. -/
def starNamedExpression (l : Level) : Reader Expr := do
  if ← seesOp "*" then starred l.bitwiseOr else namedExpression l

/-- An expression, or several with commas between them. -/
def expressions (l : Level) : Reader Expr := do
  let start ← here
  tupleUnlessSingle start (← commaList l.expression)

/-- Like `expressions`, where items may be starred. -/
def starExpressions (l : Level) : Reader Expr := do
  let start ← here
  tupleUnlessSingle start (← commaList (do
    if ← seesOp "*" then starred l.bitwiseOr else l.expression))

/-- A `yield` with what it yields. -/
def yieldExpression (l : Level) : Reader Expr := do
  let start ← here
  word "yield"
  if ← takesWord "from" then
    let e ← l.expression
    pure (.compound (← spanFrom start) .yieldFrom [e])
  else
    match ← maybe (starExpressions l) with
    | some e => pure (.compound (← spanFrom start) .yield [e])
    | Option.none => pure (.compound (← spanFrom start) .yield [])

/-! ## Comprehensions -/

/-- Targets of a loop, read no further than `in`. -/
def starTargets (l : Level) : Reader Expr := do
  let start ← here
  let e ← tupleUnlessSingle start (← commaList (do
    if ← seesOp "*" then starred l.bitwiseOr else l.bitwiseOr))
  useAs .store true e

/-- Whether the next token starts a `for` part. -/
def seesFor : Reader Bool := do
  if ← seesWord "for" then pure true
  else ahead (do
    word "async"
    word "for")

/-- One `for` part with its filters. -/
def forPart (l : Level) : Reader Generator := do
  let isAsync ← takesWord "async"
  word "for"
  let target ← starTargets l
  word "in"
  let iter ← l.disjunction
  let filters ← many (do
    word "if"
    l.disjunction)
  pure (.mk target iter filters isAsync)

/-- The `for` parts of a comprehension. -/
def forParts (l : Level) : Reader (List Generator) := many1 (forPart l)

/-- Whether an expression is starred. -/
def isStarred : Expr → Bool
  | .compound _ (.starred _) _ => true
  | _ => false

/-- Whether a name that is given a value comes next. -/
def seesNaming : Reader Bool := ahead (do
  let _ ← identifier
  op ":=")

/-! ## Brackets -/

/-- Reads the rest of a comprehension over its elements up to the closing bracket. -/
def comprehensionRest (l : Level) (start : Pos) (kind : ComprehensionKind)
    (elements : List Expr) (closer : String) : Reader Expr := do
  let parts ← forParts l
  op closer
  pure (.comprehension (← spanFrom start) kind elements parts)

/-- Items after the first, up to the closing bracket; a comma may come last. -/
def itemsRest (l : Level) (closer : String) : Reader (List Expr) := do
  let items ← many (do
    op ","
    starNamedExpression l)
  let _ ← takesOp ","
  op closer
  pure items

/-- Round brackets: an empty tuple, a group, a tuple or a generator. -/
def round (l : Level) : Reader Expr := do
  let start ← here
  op "("
  if ← takesOp ")" then pure (.compound (← spanFrom start) (.tuple .load) [])
  else if ← seesWord "yield" then
    let e ← yieldExpression l
    op ")"
    pure e
  else
    let e ← starNamedExpression l
    if ← takesOp ")" then
      require (!isStarred e)
      pure e
    else if ← seesFor then
      require (!isStarred e)
      comprehensionRest l start .generator [e] ")"
    else
      require (← seesOp ",")
      let es ← itemsRest l ")"
      pure (.compound (← spanFrom start) (.tuple .load) (e :: es))

/-- Square brackets: a list or a comprehension of one. -/
def square (l : Level) : Reader Expr := do
  let start ← here
  op "["
  if ← takesOp "]" then pure (.compound (← spanFrom start) (.list .load) [])
  else
    let e ← starNamedExpression l
    if ← seesFor then
      require (!isStarred e)
      comprehensionRest l start .list [e] "]"
    else
      let es ← itemsRest l "]"
      pure (.compound (← spanFrom start) (.list .load) (e :: es))

/-- An item of a mapping: a key with its value, or a mapping to unpack. -/
def mappingItem (l : Level) : Reader (Option Expr × Expr) := do
  if ← takesOp "**" then pure (Option.none, ← l.bitwiseOr)
  else
    let k ← l.expression
    op ":"
    let v ← l.expression
    pure (some k, v)

/-- A mapping from its items. -/
def mappingOf (span : Span) (items : List (Option Expr × Expr)) : Expr :=
  .compound span (.dict (items.map (·.1.isSome)))
    (items.filterMap (·.1) ++ items.map (·.2))

/-- Items of a mapping after the first, up to the closing bracket. -/
def mappingRest (l : Level) (start : Pos) (first : Option Expr × Expr) : Reader Expr := do
  let items ← many (do
    op ","
    mappingItem l)
  let _ ← takesOp ","
  op "\x7d"
  pure (mappingOf (← spanFrom start) (first :: items))

/-- Curly brackets: a mapping, a set or a comprehension of one. -/
def curly (l : Level) : Reader Expr := do
  let start ← here
  op "\x7b"
  if ← takesOp "\x7d" then pure (mappingOf (← spanFrom start) [])
  else if ← seesOp "**" then mappingRest l start (← mappingItem l)
  else
    let naming ← seesNaming
    let e ← starNamedExpression l
    if ← seesOp ":" then
      require (!isStarred e && !naming)
      op ":"
      let v ← l.expression
      if ← seesFor then comprehensionRest l start .dict [e, v] "\x7d"
      else mappingRest l start (some e, v)
    else if ← seesFor then
      require (!isStarred e)
      comprehensionRest l start .set [e] "\x7d"
    else
      let es ← itemsRest l "\x7d"
      pure (.compound (← spanFrom start) .set (e :: es))

/-! ## Atoms -/

/-- A constant that is a word. -/
def wordConstant : String → Option Constant
  | "True" => some (.bool true)
  | "False" => some (.bool false)
  | "None" => some .none
  | _ => Option.none

/-- Names, constants, literals and brackets. -/
def atom (l : Level) : Reader Expr := do
  let t ← peek
  match t.kind with
  | .name =>
    match wordConstant t.text with
    | some c =>
      let _ ← next
      pure (.constant t.span c)
    | Option.none =>
      let _ ← identifier
      pure (.name t.span t.text .load)
  | .number =>
    let _ ← next
    match numberConstant t.text.toList with
    | some c => pure (.constant t.span c)
    | Option.none => failure
  | .string =>
    let ts ← many1 (nextIf (·.kind = .string))
    match concatenated (starExpressions l) ts with
    | some e => pure e
    | Option.none => failure
  | .op =>
    match t.text with
    | "(" => round l
    | "[" => square l
    | "\x7b" => curly l
    | "..." =>
      let _ ← next
      pure (.constant t.span .ellipsis)
    | _ => failure
  | _ => failure

/-! ## Calls, items and fields -/

/-- The arguments of a call read so far. -/
structure Arguments where
  args : List Expr := []
  keywords : List Keyword := []
  /-- A mapping has been unpacked; only keywords may follow. -/
  unpacked : Bool := false
  /-- A comma stands last. -/
  comma : Bool := false

/-- One more argument of a call. -/
def argument (l : Level) (as : Arguments) : Reader Arguments := do
  let start ← here
  if ← takesOp "**" then
    let e ← l.expression
    pure { as with
      keywords := as.keywords ++ [.mk (← spanFrom start) Option.none e], unpacked := true }
  else if ← takesOp "*" then
    require (!as.unpacked)
    let e ← l.expression
    pure { as with args := as.args ++ [.compound (← spanFrom start) (.starred .load) [e]] }
  else if ← ahead (do
      let _ ← identifier
      op "=") then
    let name ← identifier
    op "="
    let e ← l.expression
    pure { as with keywords := as.keywords ++ [.mk (← spanFrom start) (some name.text) e] }
  else
    require as.keywords.isEmpty
    let e ← namedExpression l
    require (!(← seesOp ":=") && !(← seesOp "="))
    pure { as with args := as.args ++ [e] }

/-- The arguments of a call up to the closing bracket, which is left. -/
def arguments (l : Level) : Reader Arguments := do
  if ← seesOp ")" then pure {}
  else
    let as ← argument l {}
    let as ← whileSome (fun (as : Arguments) => maybe (do
      op ","
      argument l as)) as
    pure { as with comma := ← takesOp "," }

/-- The brackets of a call; a generator may be the only argument without brackets of its
    own, and then it takes those of the call. -/
def callRest (l : Level) (start : Pos) (func : Expr) : Reader Expr := do
  let opened ← here
  op "("
  let as ← arguments l
  match as.args, as.keywords with
  | [e], [] =>
    if ← seesFor then
      require (!isStarred e && !as.comma)
      let g ← comprehensionRest l opened .generator [e] ")"
      pure (.call (← spanFrom start) func [g] [])
    else
      op ")"
      pure (.call (← spanFrom start) func [e] [])
  | args, keywords =>
    op ")"
    pure (.call (← spanFrom start) func args keywords)

/-- An index: a slice, a starred expression or an expression. -/
def index (l : Level) : Reader Expr := do
  let start ← here
  if ← seesOp "*" then starred l.expression
  else
    let naming ← seesNaming
    let lower ← if ← seesOp ":" then pure Option.none else do
      pure (some (← namedExpression l))
    match lower, ← seesOp ":" with
    | some e, false => pure e
    | lower, _ =>
      require (!naming)
      op ":"
      let upper ← maybe l.expression
      let step ← if ← takesOp ":" then maybe l.expression else pure Option.none
      pure (.compound (← spanFrom start)
        (.slice lower.isSome upper.isSome step.isSome)
        (lower.toList ++ upper.toList ++ step.toList))

/-- The index brackets; several indices are a tuple. -/
def subscriptRest (l : Level) (start : Pos) (value : Expr) : Reader Expr := do
  op "["
  let inner ← here
  let i ← match ← commaList (index l) with
    | ([e], false) =>
      if isStarred e then do
        pure (.compound (← spanFrom inner) (.tuple .load) [e])
      else pure e
    | (es, _) => do
      pure (.compound (← spanFrom inner) (.tuple .load) es)
  op "]"
  pure (.compound (← spanFrom start) (.subscript .load) [value, i])

/-- An atom with the fields, calls and indices that follow it. -/
def primary (l : Level) : Reader Expr := do
  let start ← here
  let a ← atom l
  whileSome (fun e => do
    let t ← peek
    if t.kind = .op then
      match t.text with
      | "." =>
        op "."
        let n ← identifier
        pure (some (.field (← spanFrom start) e n.text .load))
      | "(" => pure (some (← callRest l start e))
      | "[" => pure (some (← subscriptRest l start e))
      | _ => pure Option.none
    else pure Option.none) a

/-! ## Operators -/

/-- A primary that may be awaited. -/
def awaited (l : Level) : Reader Expr := do
  let start ← here
  if ← takesWord "await" then
    let e ← primary l
    pure (.compound (← spanFrom start) .await [e])
  else primary l

/-- A power; its exponent may carry signs. -/
def power (l : Level) : Reader Expr := do
  let start ← here
  let base ← awaited l
  if ← takesOp "**" then
    let e ← l.factor
    pure (.compound (← spanFrom start) (.binOp .pow) [base, e])
  else pure base

/-- The operator that a sign stands for. -/
def signOp : String → Option UnaryOp
  | "+" => some .plus
  | "-" => some .minus
  | "~" => some .invert
  | _ => Option.none

/-- A signed factor or a power. -/
def factor (l : Level) : Reader Expr := do
  let start ← here
  let t ← peek
  match if t.kind = .op then signOp t.text else Option.none with
  | some o =>
    let _ ← next
    let e ← l.factor
    pure (.compound (← spanFrom start) (.unaryOp o) [e])
  | Option.none => power l

/-- Operands joined by operators of one strength, from the left. -/
def leftAssociative (operator : String → Option BinOp) (operand : Reader Expr) : Reader Expr := do
  let start ← here
  let first ← operand
  whileSome (fun e => do
    let t ← peek
    match if t.kind = .op then operator t.text else Option.none with
    | some o =>
      let _ ← next
      let r ← operand
      pure (some (.compound (← spanFrom start) (.binOp o) [e, r]))
    | Option.none => pure Option.none) first

/-- Products. -/
def term (l : Level) : Reader Expr := leftAssociative (fun
  | "*" => some .mult
  | "/" => some .div
  | "//" => some .floorDiv
  | "%" => some .mod
  | "@" => some .matMult
  | _ => Option.none) (factor l)

/-- Sums. -/
def sum (l : Level) : Reader Expr := leftAssociative (fun
  | "+" => some .add
  | "-" => some .sub
  | _ => Option.none) (term l)

/-- Shifts. -/
def shift (l : Level) : Reader Expr := leftAssociative (fun
  | "<<" => some .shiftLeft
  | ">>" => some .shiftRight
  | _ => Option.none) (sum l)

/-- Bitwise conjunctions. -/
def bitwiseAnd (l : Level) : Reader Expr := leftAssociative (fun
  | "&" => some .bitAnd
  | _ => Option.none) (shift l)

/-- Bitwise exclusive disjunctions. -/
def bitwiseXor (l : Level) : Reader Expr := leftAssociative (fun
  | "^" => some .bitXor
  | _ => Option.none) (bitwiseAnd l)

/-- Bitwise disjunctions. -/
def bitwiseOr (l : Level) : Reader Expr := leftAssociative (fun
  | "|" => some .bitOr
  | _ => Option.none) (bitwiseXor l)

/-- A comparison sign. -/
def comparisonSign : String → Option CmpOp
  | "==" => some .eq
  | "!=" => some .notEq
  | "<" => some .lt
  | "<=" => some .ltE
  | ">" => some .gt
  | ">=" => some .gtE
  | _ => Option.none

/-- A comparison operator, if one is next. -/
def comparisonOp : Reader (Option CmpOp) := do
  let t ← peek
  match t.kind with
  | .op =>
    match comparisonSign t.text with
    | some o =>
      let _ ← next
      pure (some o)
    | Option.none => pure Option.none
  | .name =>
    if t.text == "in" then
      let _ ← next
      pure (some .member)
    else if t.text == "is" then
      let _ ← next
      pure (some (if ← takesWord "not" then .isNot else .is))
    else if t.text == "not" then
      maybe (do
        word "not"
        word "in"
        pure .notMember)
    else pure Option.none
  | _ => pure Option.none

/-- A chain of comparisons. -/
def comparison (l : Level) : Reader Expr := do
  let start ← here
  let first ← bitwiseOr l
  let chain ← many (do
    match ← comparisonOp with
    | some o => pure (o, ← bitwiseOr l)
    | Option.none => failure)
  if chain.isEmpty then pure first
  else
    pure (.compound (← spanFrom start) (.compare (chain.map (·.1)))
      (first :: chain.map (·.2)))

/-- A negated comparison. -/
def inversion (l : Level) : Reader Expr := do
  let start ← here
  if ← takesWord "not" then
    let e ← l.inversion
    pure (.compound (← spanFrom start) (.unaryOp .not) [e])
  else comparison l

/-- Operands joined by one connective. -/
def connected (connective : String) (o : BoolOp) (operand : Reader Expr) : Reader Expr := do
  let start ← here
  let first ← operand
  let more ← many (do
    word connective
    operand)
  if more.isEmpty then pure first
  else pure (.compound (← spanFrom start) (.boolOp o) (first :: more))

/-- Conjunctions. -/
def conjunction (l : Level) : Reader Expr := connected "and" .and (inversion l)

/-- Disjunctions. -/
def disjunction (l : Level) : Reader Expr := connected "or" .or (conjunction l)

/-! ## Parameters -/

/-- A parameter as it is read: its name, what stands after a colon, and its default. -/
structure ParameterItem (α : Type) where
  formal : α
  default : Option Expr

/-- The parameters read so far. -/
structure ParameterList (α : Type) where
  positionalOnly : List α := []
  positional : List α := []
  defaults : List Expr := []
  variadic : Option α := .none
  named : List (α × Option Expr) := []
  variadicNamed : Option α := .none
  /-- A lone star has been read, and a named parameter has to follow. -/
  needsNamed : Bool := false
  /-- Only named parameters may follow. -/
  starred : Bool := false
  /-- The slash has been read. -/
  slashed : Bool := false

/-- One more entry of a parameter list.  After a default every positional parameter needs
    one; the slash comes once, after a parameter; the double star comes last. -/
def parameterEntry {α : Type} (plain annotatedStar : Reader α) (defaultValue : Reader Expr)
    (ps : ParameterList α) : Reader (ParameterList α) := do
  require ps.variadicNamed.isNone
  if ← takesOp "/" then
    require (!ps.slashed && !ps.starred && !ps.positional.isEmpty)
    pure { ps with positionalOnly := ps.positional, positional := [], slashed := true }
  else if ← takesOp "**" then
    require (!ps.needsNamed)
    pure { ps with variadicNamed := some (← plain) }
  else if ← takesOp "*" then
    require (!ps.starred)
    if ← seesOp "," then pure { ps with starred := true, needsNamed := true }
    else pure { ps with starred := true, variadic := some (← annotatedStar) }
  else
    let f ← plain
    let d ← if ← takesOp "=" then do pure (some (← defaultValue)) else pure Option.none
    if ps.starred then
      pure { ps with named := ps.named ++ [(f, d)], needsNamed := false }
    else
      require (d.isSome || ps.defaults.isEmpty)
      pure { ps with positional := ps.positional ++ [f], defaults := ps.defaults ++ d.toList }

/-- A parameter list up to its closing token, which is left. -/
def parameterList {α : Type} (closer : String) (plain annotatedStar : Reader α)
    (defaultValue : Reader Expr) : Reader (ParameterList α) := do
  if ← seesOp closer then pure {}
  else
    let ps ← parameterEntry plain annotatedStar defaultValue {}
    let ps ← whileSome (fun (ps : ParameterList α) => maybe (do
      op ","
      parameterEntry plain annotatedStar defaultValue ps)) ps
    let _ ← takesOp ","
    require (!ps.needsNamed && (← seesOp closer))
    pure ps

/-- A parameter name of a `lambda`. -/
def binder : Reader Binder := do
  let t ← identifier
  pure ⟨t.span, t.text⟩

/-- A `lambda`. -/
def lambdaExpression (l : Level) : Reader Expr := do
  let start ← here
  word "lambda"
  let ps ← parameterList ":" binder binder l.expression
  op ":"
  let body ← l.expression
  let binders : Binders :=
    { positionalOnly := ps.positionalOnly, positional := ps.positional, variadic := ps.variadic,
      named := ps.named.map fun p => (p.1, p.2.isSome), variadicNamed := ps.variadicNamed }
  pure (.lambda (← spanFrom start) binders (ps.named.filterMap (·.2)) ps.defaults body)

/-! ## Expressions -/

/-- A conditional expression, a disjunction or a `lambda`. -/
def expression (l : Level) : Reader Expr := do
  let start ← here
  if ← seesWord "lambda" then lambdaExpression l
  else
    let e ← disjunction l
    if ← takesWord "if" then
      let test ← disjunction l
      word "else"
      let other ← l.expression
      pure (.compound (← spanFrom start) .ifExp [test, e, other])
    else pure e

/-- The rules one level out. -/
def Level.outer (l : Level) : Level where
  expression := Grammar.expression l
  disjunction := Grammar.disjunction l
  inversion := Grammar.inversion l
  bitwiseOr := Grammar.bitwiseOr l
  factor := Grammar.factor l

/-- The rules with as many levels of nesting as given. -/
def level : Nat → Level
  | 0 => Level.none
  | n + 1 => (level n).outer

/-- A whole text that is one expression. -/
def readExpression? (text : List Char) : Option Expr := do
  let tokens ← Token.lex text
  let (e, c) ← (expressions (level (text.length + 2))).run ⟨tokens, Pos.start⟩
  -- only the ends of lines may follow
  match c.tokens.dropWhile (·.kind = .newline) with
  | [t] => if t.kind = .stop then some e else Option.none
  | _ => Option.none

end Covenant.Grammar
