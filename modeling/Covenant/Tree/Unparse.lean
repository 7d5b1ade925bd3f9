import Covenant.Tree.Dump

/-! # Unparsing — an expression text for a tree

    The text uses as few brackets as the strengths of the operators allow and
    one spelling for every form.  A part is bracketed when its place asks for
    a stronger form than it is; the strengths are numbers, the weakest first.

    A text inside an interpolated literal cannot hold a backslash; a tree that
    would need one there has no text. -/

namespace Covenant.Tree

open Text

/-! ## Strengths -/

namespace Strength

/-- A name given a value on the way. -/
def naming : Nat := 1
/-- Items separated by commas. -/
def tuple : Nat := 2
/-- `yield` and its kin. -/
def yield : Nat := 3
/-- Conditional expressions and `lambda`; what a place asks for by default. -/
def test : Nat := 4
/-- Disjunctions. -/
def or : Nat := 5
/-- Conjunctions. -/
def and : Nat := 6
/-- Negations. -/
def not : Nat := 7
/-- Comparisons. -/
def compare : Nat := 8
/-- Bitwise disjunctions, the weakest operands. -/
def operand : Nat := 9
/-- Bitwise exclusive disjunctions. -/
def bitXor : Nat := 10
/-- Bitwise conjunctions. -/
def bitAnd : Nat := 11
/-- Shifts. -/
def shift : Nat := 12
/-- Sums. -/
def sum : Nat := 13
/-- Products. -/
def product : Nat := 14
/-- Signs. -/
def factor : Nat := 15
/-- Powers. -/
def power : Nat := 16
/-- Awaited values. -/
def await : Nat := 17
/-- Names, literals and bracketed forms. -/
def atom : Nat := 18

/-- The next stronger one. -/
def next (n : Nat) : Nat := min (n + 1) atom

end Strength

/-- The sign of an operator with two operands. -/
def BinOp.sign : BinOp → String
  | .add => "+"
  | .sub => "-"
  | .mult => "*"
  | .matMult => "@"
  | .div => "/"
  | .mod => "%"
  | .pow => "**"
  | .shiftLeft => "<<"
  | .shiftRight => ">>"
  | .bitOr => "|"
  | .bitXor => "^"
  | .bitAnd => "&"
  | .floorDiv => "//"

/-- The strength of an operator with two operands. -/
def BinOp.strength : BinOp → Nat
  | .add | .sub => Strength.sum
  | .mult | .matMult | .div | .mod | .floorDiv => Strength.product
  | .pow => Strength.power
  | .shiftLeft | .shiftRight => Strength.shift
  | .bitOr => Strength.operand
  | .bitXor => Strength.bitXor
  | .bitAnd => Strength.bitAnd

/-- The sign of an operator with one operand, with the blank after a word. -/
def UnaryOp.sign : UnaryOp → String
  | .invert => "~"
  | .not => "not "
  | .plus => "+"
  | .minus => "-"

/-- The strength of an operator with one operand. -/
def UnaryOp.strength : UnaryOp → Nat
  | .not => Strength.not
  | _ => Strength.factor

/-- The sign of a comparison. -/
def CmpOp.sign : CmpOp → String
  | .eq => "=="
  | .notEq => "!="
  | .lt => "<"
  | .ltE => "<="
  | .gt => ">"
  | .gtE => ">="
  | .is => "is"
  | .isNot => "is not"
  | .member => "in"
  | .notMember => "not in"

/-! ## Literals with few backslashes -/

/-- The quotes a literal may stand in, in order of preference. -/
def allQuotes : List String := ["'", "\"", "\"\"\"", "'''"]

/-- A character that is always escaped, or one that is on request. -/
def escapeSpelled (escapeLayout : Bool) (c : Char) : List Char :=
  if !escapeLayout && (c = '\n' || c = '\t') then [c]
  else if c = '\\' then ['\\', '\\']
  else if isPrintable c then [c]
  else if c = '\n' then ['\\', 'n']
  else if c = '\t' then ['\\', 't']
  else if c = '\r' then ['\\', 'r']
  else numericEscape c.toNat

/-- Whether a quote occurs in a text. -/
def occursIn (q : List Char) : List Char → Bool
  | [] => q.isEmpty
  | c :: rest => q.isPrefixOf (c :: rest) || occursIn q rest

/-- The inside of a literal and the quotes it may stand in. -/
def spell (text : List Char) (quotes : List String) (escapeLayout : Bool) :
    List Char × List String :=
  let escaped := text.flatMap (escapeSpelled escapeLayout)
  let possible := if escaped.contains '\n' then quotes.filter (·.length = 3) else quotes
  let possible := possible.filter fun q => !occursIn q.toList escaped
  if possible.isEmpty then
    let literal := (quote (String.ofList text)).toList
    let q := literal.take 1
    let chosen := (quotes.find? fun t => occursIn q t.toList).getD (String.ofList q)
    ((literal.drop 1).dropLast, [chosen])
  else
    match escaped.getLast? with
    | none => (escaped, possible)
    | some last =>
      let starts (q : String) : Bool := q.toList.head? = some last
      let ordered := possible.filter (fun q => !starts q) ++ possible.filter starts
      if ordered.head?.any starts then (escaped.dropLast ++ ['\\', last], ordered)
      else (escaped, ordered)

/-- A text as a literal in the first quote that needs no backslash. -/
def spellText (text : List Char) (quotes : List String) : String :=
  let (inside, possible) := spell text quotes false
  let q := possible.headD "'"
  q ++ String.ofList inside ++ q

/-- Finds one quote for all parts of an interpolated literal; constant parts are told by
    the flag.  Gives nothing if some part leaves no quote in common. -/
def spellParts : List (List Char × Bool) → List String → Option (List Char × List String)
  | [], quotes => some ([], quotes)
  | (text, isConstant) :: rest, quotes =>
    let (inside, possible) := spell text quotes isConstant
    if possible.all fun q => !quotes.contains q then none
    else (spellParts rest possible).map fun r => (inside ++ r.1, r.2)

/-- An interpolated literal from its parts. -/
def spellInterpolated (parts : List (List Char × Bool)) : String :=
  match spellParts parts allQuotes with
  | some (inside, quotes) =>
    let q := quotes.headD "'"
    q ++ String.ofList inside ++ q
  | none =>
    -- forced into single quotes, three of them
    let inside := parts.flatMap fun p =>
      ((quote (String.ofList ('"' :: p.1))).toList.drop 2).dropLast
    "'''" ++ String.ofList inside ++ "'''"

/-! ## Forms -/

/-- Replaces an infinity, which has no literal, by a number beyond the range. -/
def Constant.spelled (avoidBackslash : Bool) : Constant → String
  | .ellipsis => "..."
  | .float x => if x.isInfinite then "1e309" else Constant.text (.float x)
  | .imaginary x => if x.isInfinite then "1e309j" else Constant.text (.imaginary x)
  | .str s marked =>
    (if marked then "u" else "")
      ++ (if avoidBackslash then spellText s.toList allQuotes else quote s)
  | c => c.text

/-- Items with commas between them, and one after a single item. -/
def itemsText : List String → String
  | [t] => t ++ ","
  | ts => ", ".intercalate ts

/-- Brackets around a form where a stronger one is asked for. -/
def guarded (asked own : Nat) (text : String) : String :=
  if own < asked then "(" ++ text ++ ")" else text

/-- The strengths the parts of a form are asked for; later parts take the default. -/
def Form.partStrengths (form : Form) (count : Nat) : List Nat :=
  match form with
  | .boolOp op =>
    let own := match op with
      | .and => Strength.and
      | .or => Strength.or
    (List.range count).map fun i => min (own + i + 1) Strength.atom
  | .namedExpr => [Strength.atom, Strength.atom]
  | .binOp .pow => [Strength.next Strength.power, Strength.power]
  | .binOp op => [op.strength, Strength.next op.strength]
  | .unaryOp op => [op.strength]
  | .ifExp => [Strength.next Strength.test, Strength.next Strength.test, Strength.test]
  | .dict keyed =>
    List.replicate (keyed.countP id) Strength.test
      ++ keyed.map fun k => if k then Strength.test else Strength.operand
  | .await | .yield | .yieldFrom => [Strength.atom]
  | .compare _ => List.replicate count (Strength.next Strength.compare)
  | .subscript _ => [Strength.atom, Strength.tuple]
  | .starred _ => [Strength.operand]
  | _ => []

/-- The items of a mapping from the texts of its keys and values. -/
def mappingItems : List Bool → List String → List String → List String
  | true :: flags, k :: ks, v :: vs => (k ++ ": " ++ v) :: mappingItems flags ks vs
  | false :: flags, ks, v :: vs => ("**" ++ v) :: mappingItems flags ks vs
  | _, _, _ => []

/-- The text of a compound form from the texts of its parts. -/
def Form.assemble (form : Form) (asked : Nat) (parts : List String) : String :=
  let part (i : Nat) : String := parts.getD i ""
  match form with
  | .boolOp .and => guarded asked Strength.and (" and ".intercalate parts)
  | .boolOp .or => guarded asked Strength.or (" or ".intercalate parts)
  | .namedExpr => guarded asked Strength.naming (part 0 ++ " := " ++ part 1)
  | .binOp op => guarded asked op.strength (part 0 ++ " " ++ op.sign ++ " " ++ part 1)
  | .unaryOp op => guarded asked op.strength (op.sign ++ part 0)
  | .ifExp => guarded asked Strength.test (part 1 ++ " if " ++ part 0 ++ " else " ++ part 2)
  | .dict keyed =>
    let keys := keyed.countP id
    "\x7b" ++ ", ".intercalate (mappingItems keyed (parts.take keys) (parts.drop keys)) ++ "\x7d"
  | .set => if parts.isEmpty then "\x7b*()\x7d" else "\x7b" ++ ", ".intercalate parts ++ "\x7d"
  | .await => guarded asked Strength.await ("await " ++ part 0)
  | .yield =>
    guarded asked Strength.yield (if parts.isEmpty then "yield" else "yield " ++ part 0)
  | .yieldFrom => guarded asked Strength.yield ("yield from " ++ part 0)
  | .compare ops =>
    guarded asked Strength.compare
      (part 0 ++ String.join ((ops.zip (parts.drop 1)).map fun p =>
        " " ++ p.1.sign ++ " " ++ p.2))
  | .formattedValue _ | .joinedStr => ""
  | .subscript _ => part 0 ++ "[" ++ part 1 ++ "]"
  | .starred _ => "*" ++ part 0
  | .list _ => "[" ++ ", ".intercalate parts ++ "]"
  | .tuple _ =>
    if parts.isEmpty || Strength.tuple < asked then "(" ++ itemsText parts ++ ")"
    else itemsText parts
  | .slice lower upper step =>
    let second := if lower then 1 else 0
    let third := if upper then second + 1 else second
    (if lower then part 0 else "") ++ ":" ++ (if upper then part second else "")
      ++ (if step then ":" ++ part third else "")

/-- Gives the last parameters their defaults. -/
def withDefaults (names defaults : List String) : List String :=
  let bare := names.length - defaults.length
  names.take bare ++ ((names.drop bare).zip defaults).map fun p => p.1 ++ "=" ++ p.2

/-- Gives the named parameters their defaults. -/
def withNamedDefaults : List (String × Bool) → List String → List String
  | (n, true) :: rest, d :: ds => (n ++ "=" ++ d) :: withNamedDefaults rest ds
  | (n, _) :: rest, ds => n :: withNamedDefaults rest ds
  | [], _ => []

/-- The parameters of a `lambda` as text. -/
def Binders.text (b : Binders) (namedDefaults defaults : List String) : String :=
  let names := (b.positionalOnly ++ b.positional).map (·.name)
  let positional := withDefaults names defaults
  let slash := b.positionalOnly.length
  let positional := if slash = 0 then positional
    else positional.take slash ++ ["/"] ++ positional.drop slash
  let star := match b.variadic with
    | some v => ["*" ++ v.name]
    | none => if b.named.isEmpty then [] else ["*"]
  ", ".intercalate (positional ++ star
    ++ withNamedDefaults (b.named.map fun p => (p.1.name, p.2)) namedDefaults
    ++ b.variadicNamed.toList.map ("**" ++ ·.name))

mutual

/-- The text of an expression where a form of some strength is asked for. -/
def Expr.unparse (avoid : Bool) (asked : Nat) : Expr → Option String
  | .name _ id _ => some id
  | .constant _ c => some (c.spelled avoid)
  | .field _ v n _ => do
    let t ← v.unparse avoid Strength.atom
    let gap := match v with
      | .constant _ (.int _) | .constant _ (.bool _) => " "
      | _ => ""
    some (t ++ gap ++ "." ++ n)
  | .call _ f as ks => do
    let t ← f.unparse avoid Strength.atom
    let as ← unparseEach avoid [] as
    let ks ← unparseKeywords avoid ks
    some (t ++ "(" ++ ", ".intercalate (as ++ ks) ++ ")")
  | .lambda _ b kd ds e => do
    let kd ← unparseEach avoid [] kd
    let ds ← unparseEach avoid [] ds
    let t ← e.unparse avoid Strength.test
    let ps := b.text kd ds
    some (guarded asked Strength.test
      ("lambda" ++ (if ps.isEmpty then "" else " " ++ ps) ++ ": " ++ t))
  | .comprehension _ k es gs => do
    let es ← unparseEach avoid [] es
    let gs ← unparseGenerators avoid gs
    let inside := ": ".intercalate es ++ String.join gs
    some (match k with
      | .list => "[" ++ inside ++ "]"
      | .generator => "(" ++ inside ++ ")"
      | _ => "\x7b" ++ inside ++ "\x7d")
  | .compound _ .joinedStr ps => do
    let parts ← embeddedParts ps
    if avoid then some ("f" ++ spellText (parts.flatMap (·.1)) allQuotes)
    else some ("f" ++ spellInterpolated parts)
  | .compound _ (.formattedValue c) ps => do
    let t ← embeddedField c ps
    some (String.ofList t)
  | .compound _ form ps => do
    let parts ← unparseEach avoid (form.partStrengths ps.length) ps
    some (form.assemble asked parts)

/-- The texts of several expressions with the strengths asked for. -/
def unparseEach (avoid : Bool) : List Nat → List Expr → Option (List String)
  | _, [] => some []
  | asked, e :: es => do
    let t ← e.unparse avoid (asked.headD Strength.test)
    let ts ← unparseEach avoid (asked.drop 1) es
    some (t :: ts)

/-- The texts of keyword arguments. -/
def unparseKeywords (avoid : Bool) : List Keyword → Option (List String)
  | [] => some []
  | .mk _ n v :: ks => do
    let t ← v.unparse avoid Strength.test
    let ts ← unparseKeywords avoid ks
    some ((match n with
      | some n => n ++ "=" ++ t
      | none => "**" ++ t) :: ts)

/-- The texts of the parts of a comprehension. -/
def unparseGenerators (avoid : Bool) : List Generator → Option (List String)
  | [] => some []
  | .mk t i fs a :: gs => do
    let t ← t.unparse avoid Strength.tuple
    let i ← i.unparse avoid (Strength.next Strength.test)
    let fs ← unparseEach avoid (List.replicate fs.length (Strength.next Strength.test)) fs
    let rest ← unparseGenerators avoid gs
    some (((if a then " async for " else " for ") ++ t ++ " in " ++ i
      ++ String.join (fs.map (" if " ++ ·))) :: rest)

/-- The parts of an interpolated literal before quoting; constants are told by the flag. -/
def embeddedParts : List Expr → Option (List (List Char × Bool))
  | [] => some []
  | .constant _ (.str s _) :: es => do
    let rest ← embeddedParts es
    let doubled := s.toList.flatMap fun c => if c = '{' || c = '}' then [c, c] else [c]
    some ((doubled, true) :: rest)
  | .compound _ (.formattedValue c) ps :: es => do
    let t ← embeddedField c ps
    let rest ← embeddedParts es
    some ((t, false) :: rest)
  | .compound _ .joinedStr ps :: es => do
    let inner ← embeddedParts ps
    let rest ← embeddedParts es
    some ((inner.flatMap (·.1), false) :: rest)
  | _ :: _ => none

/-- A value between braces. -/
def embeddedField (conversion : Option Char) : List Expr → Option (List Char)
  | [] => none
  | v :: spec => do
    let t ← v.unparse true (Strength.next Strength.test)
    if t.toList.contains '\\' then none
    let spec ← embeddedParts spec
    let gap := if t.toList.head? = some '{' then [' '] else []
    let conv := match conversion with
      | some c => ['!', c]
      | none => []
    let layout := if spec.isEmpty then [] else ':' :: spec.flatMap (·.1)
    some ('{' :: gap ++ t.toList ++ conv ++ layout ++ ['}'])

end

/-- The text of an expression on its own. -/
def Expr.text? (e : Expr) : Option String := e.unparse false Strength.test

end Covenant.Tree
