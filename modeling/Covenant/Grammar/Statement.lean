import Covenant.Grammar.Pattern

/-! # The grammar of statements

    A program text is a sequence of statements.  Simple ones share a line;
    compound ones have blocks, each of which is a line of simple statements or
    is indented.  Blocks nest no deeper than the lexer lets lines be indented,
    so that many levels are enough. -/

namespace Covenant.Grammar

open Covenant.Tree Reader

/-! ## Simple statements -/

/-- The right-hand side of an assignment. -/
def assignedValue (l : Level) : Reader Expr := do
  if ← seesWord "yield" then yieldExpression l else starExpressions l

/-- The operator of an updating assignment. -/
def updateSign : String → Option BinOp
  | "+=" => some .add
  | "-=" => some .sub
  | "*=" => some .mult
  | "@=" => some .matMult
  | "/=" => some .div
  | "%=" => some .mod
  | "&=" => some .bitAnd
  | "|=" => some .bitOr
  | "^=" => some .bitXor
  | "<<=" => some .shiftLeft
  | ">>=" => some .shiftRight
  | "**=" => some .pow
  | "//=" => some .floorDiv
  | _ => none

/-- Whether an expression is a target by itself: a name, a field or an item. -/
def isSingleTarget : Expr → Bool
  | .name .. | .field .. | .compound _ (.subscript _) _ => true
  | _ => false

/-- The targets after the first and the value of an assignment. -/
def assignmentRest (l : Level) (first : Expr) : Reader Stmt := do
  let values ← many1 (do
    op "="
    assignedValue l)
  let targets ← (first :: values.dropLast).mapM (useAs .store true)
  match values.getLast? with
  | some v => pure (.assign targets v)
  | none => failure

/-- An expression, or an assignment of any kind. -/
def expressionStatement (l : Level) : Reader Stmt := do
  if ← seesWord "yield" then do
    let e ← yieldExpression l
    require (!(← seesOp "="))
    pure (.expr e)
  else
    let e ← starExpressions l
    let t ← peek
    if t.kind = .op then
      if t.text == "=" then assignmentRest l e
      else if t.text == ":" then
        require (isSingleTarget e)
        let target ← useAs .store false e
        op ":"
        let declared ← l.expression
        let value ← if ← takesOp "=" then do pure (some (← assignedValue l)) else pure none
        pure (.annotated target declared value)
      else
        match updateSign t.text with
        | some o =>
          require (isSingleTarget e)
          let target ← useAs .store false e
          let _ ← next
          pure (.update target o (← assignedValue l))
        | none => pure (.expr e)
    else pure (.expr e)

/-- Whether a simple statement ends here. -/
def seesEnd : Reader Bool := sees fun t => t.kind = .newline || isOp ";" t

/-- A name with dots in it, as text. -/
def moduleName : Reader String := do
  let names ← separated "." identifier
  pure (".".intercalate (names.map (·.text)))

/-- An imported name with its new name. -/
def importedAs (name : Reader String) : Reader Alias := do
  let n ← name
  if ← takesWord "as" then do
    pure ⟨n, some (← identifier).text⟩
  else pure ⟨n, none⟩

/-- How many dots stand in front of a module's name. -/
def leadingDots : Reader Nat := do
  whileSome (fun n => do
    if ← takesOp "." then pure (some (n + 1))
    else if ← takesOp "..." then pure (some (n + 3))
    else pure none) 0

/-- The names that are imported from a module. -/
def importedNames : Reader (List Alias) := do
  let name : Reader String := do pure (← identifier).text
  if ← takesOp "*" then pure [⟨"*", none⟩]
  else if ← takesOp "(" then
    let (names, _) ← commaList (importedAs name)
    op ")"
    pure names
  else separated "," (importedAs name)

/-- An import from a module. -/
def importFrom : Reader Stmt := do
  word "from"
  let dots ← leadingDots
  let module ← if ← seesWord "import" then pure none else do pure (some (← moduleName))
  require (dots != 0 || module.isSome)
  word "import"
  pure (.importingFrom module (← importedNames) dots)

/-- A statement that starts with a keyword and has no block. -/
def keywordStatement (l : Level) : String → Option (Reader Stmt)
  | "return" => some do
    word "return"
    if ← seesEnd then pure (.ret none) else do
      pure (.ret (some (← starExpressions l)))
  | "raise" => some do
    word "raise"
    if ← seesEnd then pure (.raising none none)
    else
      let e ← l.expression
      if ← takesWord "from" then do
        pure (.raising (some e) (some (← l.expression)))
      else pure (.raising (some e) none)
  | "pass" => some do
    word "pass"
    pure .pass
  | "break" => some do
    word "break"
    pure .leave
  | "continue" => some do
    word "continue"
    pure .again
  | "del" => some do
    word "del"
    let (es, _) ← commaList l.bitwiseOr
    let targets ← es.mapM (useAs .delete false)
    require (← seesEnd)
    pure (.delete targets)
  | "assert" => some do
    word "assert"
    let test ← l.expression
    if ← takesOp "," then do
      pure (.assertion test (some (← l.expression)))
    else pure (.assertion test none)
  | "global" => some do
    word "global"
    pure (.declareGlobal ((← separated "," identifier).map (·.text)))
  | "nonlocal" => some do
    word "nonlocal"
    pure (.declareNonlocal ((← separated "," identifier).map (·.text)))
  | "import" => some do
    word "import"
    pure (.importing (← separated "," (importedAs moduleName)))
  | "from" => some importFrom
  | _ => none

/-- A simple statement. -/
def simpleStatement (l : Level) : Reader Stmt := do
  let t ← peek
  match if t.kind = .name then keywordStatement l t.text else none with
  | some p => p
  | none => expressionStatement l

/-- The simple statements of a line. -/
def simpleLine (l : Level) : Reader (List Stmt) := do
  let ss ← separated ";" (simpleStatement l)
  let _ ← takesOp ";"
  layout .newline
  pure ss

/-! ## Definitions -/

/-- A parameter of a definition. -/
def formal (declared : Reader Expr) : Reader Formal := do
  let t ← identifier
  let hint ← if ← takesOp ":" then do pure (some (← declared)) else pure none
  pure ⟨← pure ⟨t.span.start, (← get).lastStop⟩, t.text, hint⟩

/-- The parameters of a definition up to the closing bracket. -/
def formals (l : Level) : Reader Formals := do
  let ps ← parameterList ")" (formal l.expression)
    (formal (do
      if ← seesOp "*" then starred l.bitwiseOr else l.expression)) l.expression
  pure { positionalOnly := ps.positionalOnly, positional := ps.positional,
         defaults := ps.defaults, variadic := ps.variadic, named := ps.named,
         variadicNamed := ps.variadicNamed }

/-- The decorators of a definition. -/
def decorators (l : Level) : Reader (List Expr) := many (do
  op "@"
  let e ← namedExpression l
  layout .newline
  pure e)

/-- A function. -/
def functionDefinition (l : Level) (block : Reader (List Stmt)) (decorators : List Expr) :
    Reader Stmt := do
  let isAsync ← takesWord "async"
  word "def"
  let name ← identifier
  op "("
  let ps ← formals l
  op ")"
  let returns ← if ← takesOp "->" then do pure (some (← l.expression)) else pure none
  op ":"
  pure (.function ⟨isAsync, name.text, ps, decorators, returns⟩ (← block))

/-- A class. -/
def classDefinition (l : Level) (block : Reader (List Stmt)) (decorators : List Expr) :
    Reader Stmt := do
  word "class"
  let name ← identifier
  let as ← if ← takesOp "(" then do
      let as ← arguments l
      op ")"
      pure as
    else pure {}
  op ":"
  pure (.cls ⟨name.text, as.args, as.keywords, decorators⟩ (← block))

/-- A decorated definition. -/
def definition (l : Level) (block : Reader (List Stmt)) : Reader Stmt := do
  let ds ← decorators l
  if ← seesWord "class" then classDefinition l block ds else functionDefinition l block ds

/-! ## Compound statements -/

/-- A block after the word `else`, if there is one. -/
def elseBlock (block : Reader (List Stmt)) : Reader (List Stmt) := do
  if ← takesWord "else" then
    op ":"
    block
  else pure []

/-- A conditional statement with all its branches. -/
def branches (l : Level) (block : Reader (List Stmt)) : Reader Stmt := do
  word "if"
  let test ← namedExpression l
  op ":"
  let body ← block
  let more ← many (do
    word "elif"
    let test ← namedExpression l
    op ":"
    pure (test, ← block))
  let last ← elseBlock block
  let rest := more.foldr (fun b other => [Stmt.branch b.1 b.2 other]) last
  pure (.branch test body rest)

/-- A loop with a condition. -/
def whileLoop (l : Level) (block : Reader (List Stmt)) : Reader Stmt := do
  word "while"
  let test ← namedExpression l
  op ":"
  let body ← block
  pure (.loop test body (← elseBlock block))

/-- A loop over items. -/
def forLoop (l : Level) (block : Reader (List Stmt)) : Reader Stmt := do
  let isAsync ← takesWord "async"
  word "for"
  let target ← starTargets l
  word "in"
  let iter ← starExpressions l
  op ":"
  let body ← block
  pure (.forEach isAsync target iter body (← elseBlock block))

/-- A managed resource with its target. -/
def resource (l : Level) : Reader (Expr × Option Expr) := do
  let e ← l.expression
  let target ← maybe (do
    word "as"
    let t ← if ← seesOp "*" then starred l.bitwiseOr else l.bitwiseOr
    let t ← useAs .store true t
    require ((← seesOp ",") || (← seesOp ")") || (← seesOp ":"))
    pure t)
  pure (e, target)

/-- The resources of a `with` statement, which may be put in brackets. -/
def resources (l : Level) : Reader (List (Expr × Option Expr)) :=
  orElse
    (do
      op "("
      let (items, _) ← commaList (resource l)
      op ")"
      op ":"
      pure items)
    (do
      let items ← separated "," (resource l)
      op ":"
      pure items)

/-- A statement with managed resources. -/
def withStatement (l : Level) (block : Reader (List Stmt)) : Reader Stmt := do
  let isAsync ← takesWord "async"
  word "with"
  let items ← resources l
  pure (.within isAsync items (← block))

/-- A handler.  All handlers of a statement catch groups, or none of them does. -/
def handler (l : Level) (block : Reader (List Stmt)) (group : Bool) : Reader Handler := do
  word "except"
  if group then op "*"
  if !group && (← takesOp ":") then do
    pure (.mk none none (← block))
  else
    let type ← l.expression
    let name ← if ← takesWord "as" then do pure (some (← identifier).text) else pure none
    op ":"
    pure (.mk (some type) name (← block))

/-- A statement whose failures are handled. -/
def tryStatement (l : Level) (block : Reader (List Stmt)) : Reader Stmt := do
  word "try"
  op ":"
  let body ← block
  let group ← ahead (do
    word "except"
    op "*")
  let handlers ← many (handler l block group)
  let other ← if handlers.isEmpty then pure [] else elseBlock block
  let final ← if ← takesWord "finally" then do
      op ":"
      pure (some (← block))
    else pure none
  require (!handlers.isEmpty || final.isSome)
  pure (.attempt body handlers other (final.getD []))

/-- One alternative of a selection. -/
def caseBlock (l : Level) (block : Reader (List Stmt)) : Reader Case := do
  word "case"
  let p ← casePattern l
  let guard ← if ← takesWord "if" then do pure (some (← namedExpression l)) else pure none
  op ":"
  pure (.mk p guard (← block))

/-- The subject of a selection. -/
def subject (l : Level) : Reader Expr := do
  let start ← here
  let items ← commaList (starNamedExpression l)
  match items with
  | ([e], false) =>
    require (!isStarred e)
    pure e
  | items => tupleUnlessSingle start items

/-- A selection by patterns. -/
def selection (l : Level) (block : Reader (List Stmt)) : Reader Stmt := do
  word "match"
  let s ← subject l
  op ":"
  layout .newline
  layout .indent
  let cases ← many1 (caseBlock l block)
  layout .dedent
  pure (.select s cases)

/-- The reader of a statement with blocks, told by its first words. -/
def compoundStatement (l : Level) (block : Reader (List Stmt)) (first second : Token) :
    Option (Reader Stmt) :=
  if isOp "@" first then some (definition l block)
  else if first.kind ≠ .name then none
  else
    match first.text with
    | "def" | "class" => some (definition l block)
    | "if" => some (branches l block)
    | "while" => some (whileLoop l block)
    | "for" => some (forLoop l block)
    | "with" => some (withStatement l block)
    | "try" => some (tryStatement l block)
    | "async" =>
      if isWord "def" second then some (definition l block)
      else if isWord "for" second then some (forLoop l block)
      else some (withStatement l block)
    | _ => none

/-- The next two tokens. -/
def nextTwo : Reader (Token × Token) := fun c =>
  match c.tokens with
  | a :: b :: _ => some ((a, b), c)
  | _ => none

/-- A statement, or a line of simple ones, given the reader of its blocks. -/
def statementLine (l : Level) (block : Reader (List Stmt)) : Reader (List Stmt) := do
  let (first, second) ← nextTwo
  match compoundStatement l block first second with
  | some p => do
    pure [← p]
  | none =>
    if isWord "match" first then
      orElse (do pure [← selection l block]) (simpleLine l)
    else simpleLine l

/-- A block, with as many levels of nesting as given. -/
def blockAt (l : Level) : Nat → Reader (List Stmt)
  | 0 => failure
  | n + 1 => do
    if ← sees (·.kind = .newline) then
      layout .newline
      layout .indent
      let lines ← many1 (statementLine l (blockAt l n))
      layout .dedent
      pure lines.flatten
    else simpleLine l

/-- The statements of a program text. -/
def readProgram? (text : List Char) : Option (List Stmt) := do
  let tokens ← Token.lex text
  let l := level (text.length + 2)
  let (lines, c) ← (many (statementLine l (blockAt l (Token.maxIndents + 1)))).run
    ⟨tokens, Pos.start⟩
  match c.tokens with
  | [t] => if t.kind = .stop then some lines.flatten else none
  | _ => none

end Covenant.Grammar
