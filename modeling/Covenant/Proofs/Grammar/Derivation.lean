import Covenant.Grammar.Expression

/-! # Derivations — the grammar of expressions, without a reader

    `Derives fit ts x` says that the tokens `ts` form the phrase `x`.  The rules
    are those of the readers, stated for tokens and trees alone: there is no
    cursor, no look ahead and no level.

    * Phrases are trees of one rule, and the lists and parts that brackets,
      calls, comprehensions and `lambda`s are made of.
    * Spans are left open but for names and calls, whose places are looked at
      later; `fit` is what is asked of every call.
    * Assignment expressions, `await`, `yield` and interpolated strings have no
      rule: what is derived is a plain tree. -/

namespace Covenant.Grammar

open Covenant.Tree Reader

/-! ## Rules -/

/-- The rules that a tree may be read by, from the tightest to the loosest. -/
inductive Rule where
  | atom | primary | power | factor | term | sum | shift | bitAnd | bitXor | bitOr
  | comparison | inversion | conjunction | disjunction | expression
  deriving DecidableEq

/-- The next looser rule. -/
def Rule.outer : Rule → Rule
  | .atom => .primary
  | .primary => .power
  | .power => .factor
  | .factor => .term
  | .term => .sum
  | .sum => .shift
  | .shift => .bitAnd
  | .bitAnd => .bitXor
  | .bitXor => .bitOr
  | .bitOr => .comparison
  | .comparison => .inversion
  | .inversion => .conjunction
  | .conjunction => .disjunction
  | .disjunction | .expression => .expression

/-- The operators that join the operands of a rule from the left. -/
def Rule.operator : Rule → String → Option BinOp
  | .term => fun
    | "*" => some .mult
    | "/" => some .div
    | "//" => some .floorDiv
    | "%" => some .mod
    | "@" => some .matMult
    | _ => none
  | .sum => fun
    | "+" => some .add
    | "-" => some .sub
    | _ => none
  | .shift => fun
    | "<<" => some .shiftLeft
    | ">>" => some .shiftRight
    | _ => none
  | .bitAnd => fun
    | "&" => some .bitAnd
    | _ => none
  | .bitXor => fun
    | "^" => some .bitXor
    | _ => none
  | .bitOr => fun
    | "|" => some .bitOr
    | _ => none
  | _ => fun _ => none

/-- The word that joins the operands of a rule, and the connective it stands for. -/
def Rule.connective : Rule → Option (String × BoolOp)
  | .conjunction => some ("and", .and)
  | .disjunction => some ("or", .or)
  | _ => none

/-- What the members of a list are read as. -/
inductive Kind where
  | rule (r : Rule)
  /-- An expression, or a starred operand. -/
  | item
  /-- An operand that may be starred, read no further than `in`. -/
  | target
  /-- What may stand in index brackets. -/
  | index
  deriving DecidableEq

/-- The rule of a member that stands for itself. -/
def Kind.base : Kind → Rule
  | .rule r => r
  | .item | .index => .expression
  | .target => .bitOr

/-- The rule of what a star may stand in front of. -/
def Kind.starred : Kind → Option Rule
  | .rule _ => none
  | .item | .target => some .bitOr
  | .index => some .expression

/-- What stands between the members of a list. -/
inductive Separator where
  | comma
  | word (w : String)

/-- Whether a token is the separator. -/
def Separator.test : Separator → Token → Bool
  | .comma => isOp ","
  | .word w => isWord w

/-! ## Parts -/

/-- An argument of a call. -/
inductive Argument where
  | positional (e : Expr)
  | star (span : Span) (e : Expr)
  | named (span : Span) (name : String) (e : Expr)
  | unpacked (span : Span) (e : Expr)

namespace Argument

/-- The positional argument that an argument is. -/
def positional? : Argument → Option Expr
  | positional e => some e
  | star span e => some (.compound span (.starred .load) [e])
  | named .. | unpacked .. => none

/-- The keyword argument that an argument is. -/
def keyword? : Argument → Option Keyword
  | named span name e => some (.mk span (some name) e)
  | unpacked span e => some (.mk span none e)
  | positional _ | star .. => none

/-- Whether an argument unpacks a mapping. -/
def isUnpacked : Argument → Bool
  | unpacked .. => true
  | _ => false

/-- Whether an argument may follow others: a plain one follows no keyword, a starred one follows
    no unpacked mapping. -/
def mayFollow (before : List Argument) : Argument → Bool
  | positional _ => before.all fun a => a.keyword?.isNone
  | star .. => before.all fun a => !a.isUnpacked
  | named .. | unpacked .. => true

end Argument

/-- Whether arguments may stand in this order behind others. -/
def Argument.inOrder (before : List Argument) : List Argument → Bool
  | [] => true
  | a :: as => a.mayFollow before && inOrder (before ++ [a]) as

/-- An entry of a parameter list. -/
inductive Entry where
  | slash
  | loneStar
  | star (b : Binder)
  | doubleStar (b : Binder)
  | plain (b : Binder) (default : Option Expr)

/-- One more entry of a parameter list, if it may stand there. -/
def ParameterList.enter (ps : ParameterList Binder) : Entry → Option (ParameterList Binder)
  | .slash =>
    if ps.variadicNamed.isNone ∧ !ps.slashed ∧ !ps.starred ∧ !ps.positional.isEmpty then
      some { ps with positionalOnly := ps.positional, positional := [], slashed := true }
    else none
  | .loneStar =>
    if ps.variadicNamed.isNone ∧ !ps.starred then
      some { ps with starred := true, needsNamed := true }
    else none
  | .star b =>
    if ps.variadicNamed.isNone ∧ !ps.starred then
      some { ps with starred := true, variadic := some b }
    else none
  | .doubleStar b =>
    if ps.variadicNamed.isNone ∧ !ps.needsNamed then some { ps with variadicNamed := some b }
    else none
  | .plain b d =>
    if ps.variadicNamed.isSome then none
    else if ps.starred then some { ps with named := ps.named ++ [(b, d)], needsNamed := false }
    else if d.isSome ∨ ps.defaults.isEmpty then
      some { ps with positional := ps.positional ++ [b], defaults := ps.defaults ++ d.toList }
    else none

/-- Several more entries. -/
def ParameterList.enterAll (ps : ParameterList Binder) :
    List Entry → Option (ParameterList Binder)
  | [] => some ps
  | p :: more => (ps.enter p).bind (enterAll · more)

/-- The names that a parameter list binds. -/
def ParameterList.binders (ps : ParameterList Binder) : Binders where
  positionalOnly := ps.positionalOnly
  positional := ps.positional
  variadic := ps.variadic
  named := ps.named.map fun p => (p.1, p.2.isSome)
  variadicNamed := ps.variadicNamed

/-- The place where some tokens start. -/
def startOf (ts : List Token) : Pos := (ts.head?.map (·.span.start)).getD default

/-- A comma that may come last. -/
inductive Trail : List Token → Prop where
  | none : Trail []
  | comma {t : Token} : isOp "," t = true → Trail [t]

/-- The word in front of a `for` part that makes it asynchronous. -/
inductive Leads : List Token → Bool → Prop where
  | none : Leads [] false
  | async {t : Token} : isWord "async" t = true → Leads [t] true

/-- The tokens of a comparison operator. -/
inductive Compares : List Token → CmpOp → Prop where
  | sign {t : Token} {o : CmpOp} : t.kind = .op → comparisonSign t.text = some o → Compares [t] o
  | member {t : Token} : isWord "in" t = true → Compares [t] .member
  | is {t : Token} : isWord "is" t = true → Compares [t] .is
  | isNot {t u : Token} : isWord "is" t = true → isWord "not" u = true → Compares [t, u] .isNot
  | notMember {t u : Token} : isWord "not" t = true → isWord "in" u = true →
      Compares [t, u] .notMember

/-- The brackets and the form of a display. -/
inductive Display where
  | tuple | list | set
  deriving DecidableEq

namespace Display

/-- The bracket that opens a display. -/
def opener : Display → String
  | tuple => "("
  | list => "["
  | set => "\x7b"

/-- The bracket that closes a display. -/
def closer : Display → String
  | tuple => ")"
  | list => "]"
  | set => "\x7d"

/-- The form of a display. -/
def form : Display → Form
  | tuple => .tuple .load
  | list => .list .load
  | set => .set

/-- What a comprehension in these brackets builds. -/
def comprehension : Display → ComprehensionKind
  | tuple => .generator
  | list => .list
  | set => .set

end Display

/-! ## Phrases -/

/-- What tokens may form. -/
inductive Phrase where
  /-- A tree. -/
  | one (k : Kind) (e : Expr)
  /-- Trees with separators in front of them. -/
  | more (sep : Separator) (k : Kind) (es : List Expr)
  /-- A tree, or several between commas, which are a tuple. -/
  | several (k : Kind) (e : Expr)
  /-- Operands with comparisons in front of them. -/
  | chain (os : List CmpOp) (es : List Expr)
  /-- An expression that may be absent. -/
  | optional (e : Option Expr)
  /-- A step of a slice with its colon. -/
  | step (e : Option Expr)
  /-- An item of a mapping. -/
  | pair (p : Option Expr × Expr)
  /-- Items of a mapping with commas in front of them. -/
  | pairs (ps : List (Option Expr × Expr))
  /-- The `for` parts of a comprehension. -/
  | parts (gs : List Generator)
  | argument (a : Argument)
  /-- Arguments with commas in front of them. -/
  | arguments (as : List Argument)
  /-- What stands in the brackets of a call. -/
  | given (as : List Argument)
  | entry (p : Entry)
  /-- Entries of a parameter list with commas in front of them. -/
  | entries (ps : List Entry)
  /-- A parameter list. -/
  | parameters (ps : List Entry)

/-- `Derives fit ts x`: the tokens form the phrase, in which every call is `fit`. -/
inductive Derives (fit : Expr → Prop) : List Token → Phrase → Prop where
  -- Names, constants and brackets
  | name {t : Token} : isIdentifier t = true →
      Derives fit [t] (.one (.rule .atom) (.name t.span t.text .load))
  | word {t : Token} {c : Constant} (span : Span) : t.kind = .name → wordConstant t.text = some c →
      Derives fit [t] (.one (.rule .atom) (.constant span c))
  | number {t : Token} {c : Constant} (span : Span) : t.kind = .number →
      numberConstant t.text.toList = some c →
      Derives fit [t] (.one (.rule .atom) (.constant span c))
  | string {ts : List Token} {c : Constant} (span : Span) : ts ≠ [] →
      (∀ t ∈ ts, t.kind = .string) →
      (∀ read us, us.map (·.text) = ts.map (·.text) →
        ∃ place, concatenated read us = some (.constant place c)) →
      Derives fit ts (.one (.rule .atom) (.constant span c))
  | ellipsis {t : Token} (span : Span) : isOp "..." t = true →
      Derives fit [t] (.one (.rule .atom) (.constant span .ellipsis))
  | group {t u : Token} {ts : List Token} {e : Expr} : isOp "(" t = true →
      Derives fit ts (.one (.rule .expression) e) → isOp ")" u = true →
      Derives fit (t :: (ts ++ [u])) (.one (.rule .atom) e)
  | empty {t u : Token} (d : Display) (span : Span) : d ≠ .set → isOp d.opener t = true →
      isOp d.closer u = true → Derives fit [t, u] (.one (.rule .atom) (.compound span d.form []))
  | display {t u : Token} {ts us vs : List Token} {e : Expr} {es : List Expr} (d : Display)
      (span : Span) : isOp d.opener t = true → Derives fit ts (.one .item e) →
      Derives fit us (.more .comma .item es) → Trail vs → (d = .tuple → es ≠ [] ∨ vs ≠ []) →
      isOp d.closer u = true →
      Derives fit (t :: (ts ++ (us ++ (vs ++ [u]))))
        (.one (.rule .atom) (.compound span d.form (e :: es)))
  | comprehension {t u : Token} {ts us : List Token} {e : Expr} {gs : List Generator} (d : Display)
      (span : Span) : isOp d.opener t = true → Derives fit ts (.one (.rule .expression) e) →
      Derives fit us (.parts gs) → gs ≠ [] → isOp d.closer u = true →
      Derives fit (t :: (ts ++ (us ++ [u])))
        (.one (.rule .atom) (.comprehension span d.comprehension [e] gs))
  | emptyMapping {t u : Token} (span : Span) : isOp "\x7b" t = true → isOp "\x7d" u = true →
      Derives fit [t, u] (.one (.rule .atom) (mappingOf span []))
  | mapping {t u : Token} {ts us vs : List Token} {p : Option Expr × Expr}
      {ps : List (Option Expr × Expr)} (span : Span) : isOp "\x7b" t = true →
      Derives fit ts (.pair p) → Derives fit us (.pairs ps) → Trail vs → isOp "\x7d" u = true →
      Derives fit (t :: (ts ++ (us ++ (vs ++ [u]))))
        (.one (.rule .atom) (mappingOf span (p :: ps)))
  | mappingComprehension {t u : Token} {ts us : List Token} {k v : Expr} {gs : List Generator}
      (span : Span) : isOp "\x7b" t = true → Derives fit ts (.pair (some k, v)) →
      Derives fit us (.parts gs) → gs ≠ [] → isOp "\x7d" u = true →
      Derives fit (t :: (ts ++ (us ++ [u])))
        (.one (.rule .atom) (.comprehension span .dict [k, v] gs))
  -- Fields, calls and items
  | field {t u : Token} {ts : List Token} {e : Expr} (span : Span) :
      Derives fit ts (.one (.rule .primary) e) → isOp "." t = true → isIdentifier u = true →
      Derives fit (ts ++ [t, u]) (.one (.rule .primary) (.field span e u.text .load))
  | call {t u : Token} {ts us : List Token} {f : Expr} {as : List Argument} {e : Expr} :
      Derives fit ts (.one (.rule .primary) f) → isOp "(" t = true → Derives fit us (.given as) →
      isOp ")" u = true →
      e = .call ⟨startOf ts, u.span.stop⟩ f
        (as.filterMap Argument.positional?) (as.filterMap Argument.keyword?) → fit e →
      Derives fit (ts ++ t :: (us ++ [u])) (.one (.rule .primary) e)
  | callComprehension {t u : Token} {ts us vs : List Token} {f g e : Expr} {gs : List Generator}
      (span : Span) : Derives fit ts (.one (.rule .primary) f) → isOp "(" t = true →
      Derives fit us (.one (.rule .expression) g) → Derives fit vs (.parts gs) → gs ≠ [] →
      isOp ")" u = true →
      e = .call ⟨startOf ts, u.span.stop⟩ f [.comprehension span .generator [g] gs] [] → fit e →
      Derives fit (ts ++ t :: (us ++ (vs ++ [u]))) (.one (.rule .primary) e)
  | subscript {t u : Token} {ts us : List Token} {e i : Expr} (span : Span) :
      Derives fit ts (.one (.rule .primary) e) → isOp "[" t = true →
      Derives fit us (.several .index i) → isOp "]" u = true →
      Derives fit (ts ++ t :: (us ++ [u]))
        (.one (.rule .primary) (.compound span (.subscript .load) [e, i]))
  -- Operators
  | outer {ts : List Token} {e : Expr} {r : Rule} : Derives fit ts (.one (.rule r) e) →
      Derives fit ts (.one (.rule r.outer) e)
  | power {t : Token} {ts us : List Token} {a b : Expr} (span : Span) :
      Derives fit ts (.one (.rule .primary) a) → isOp "**" t = true →
      Derives fit us (.one (.rule .factor) b) →
      Derives fit (ts ++ t :: us) (.one (.rule .power) (.compound span (.binOp .pow) [a, b]))
  | sign {t : Token} {ts : List Token} {e : Expr} {o : UnaryOp} (span : Span) : t.kind = .op →
      signOp t.text = some o → Derives fit ts (.one (.rule .factor) e) →
      Derives fit (t :: ts) (.one (.rule .factor) (.compound span (.unaryOp o) [e]))
  | binary {t : Token} {ts us : List Token} {a b : Expr} {r : Rule} {o : BinOp} (span : Span) :
      Derives fit ts (.one (.rule r.outer) a) → t.kind = .op → r.outer.operator t.text = some o →
      Derives fit us (.one (.rule r) b) →
      Derives fit (ts ++ t :: us) (.one (.rule r.outer) (.compound span (.binOp o) [a, b]))
  | compare {ts us : List Token} {e : Expr} {os : List CmpOp} {es : List Expr} (span : Span) :
      Derives fit ts (.one (.rule .bitOr) e) → Derives fit us (.chain os es) → os ≠ [] →
      Derives fit (ts ++ us) (.one (.rule .comparison) (.compound span (.compare os) (e :: es)))
  | negation {t : Token} {ts : List Token} {e : Expr} (span : Span) : isWord "not" t = true →
      Derives fit ts (.one (.rule .inversion) e) →
      Derives fit (t :: ts) (.one (.rule .inversion) (.compound span (.unaryOp .not) [e]))
  | connected {ts us : List Token} {e : Expr} {es : List Expr} {r : Rule} {w : String} {o : BoolOp}
      (span : Span) : r.outer.connective = some (w, o) → Derives fit ts (.one (.rule r) e) →
      Derives fit us (.more (.word w) (.rule r) es) → es ≠ [] →
      Derives fit (ts ++ us) (.one (.rule r.outer) (.compound span (.boolOp o) (e :: es)))
  | conditional {t u : Token} {ts us vs : List Token} {a b c : Expr} (span : Span) :
      Derives fit ts (.one (.rule .disjunction) a) → isWord "if" t = true →
      Derives fit us (.one (.rule .disjunction) b) → isWord "else" u = true →
      Derives fit vs (.one (.rule .expression) c) →
      Derives fit (ts ++ t :: (us ++ u :: vs))
        (.one (.rule .expression) (.compound span .ifExp [b, a, c]))
  | lambda {t u : Token} {ts us : List Token} {e : Expr} {ps : List Entry}
      {list : ParameterList Binder} (span : Span) : isWord "lambda" t = true →
      Derives fit ts (.parameters ps) → ParameterList.enterAll {} ps = some list →
      list.needsNamed = false → isOp ":" u = true → Derives fit us (.one (.rule .expression) e) →
      Derives fit (t :: (ts ++ u :: us))
        (.one (.rule .expression)
          (.lambda span list.binders (list.named.filterMap (·.2)) list.defaults e))
  -- Members of lists
  | plain {ts : List Token} {k : Kind} {e : Expr} : Derives fit ts (.one (.rule k.base) e) →
      Derives fit ts (.one k e)
  | starred {t : Token} {ts : List Token} {k : Kind} {r : Rule} {e : Expr} (span : Span) :
      k.starred = some r → isOp "*" t = true → Derives fit ts (.one (.rule r) e) →
      Derives fit (t :: ts) (.one k (.compound span (.starred .load) [e]))
  | slice {t : Token} {ts us vs : List Token} {a b c : Option Expr} (span : Span) :
      Derives fit ts (.optional a) → isOp ":" t = true → Derives fit us (.optional b) →
      Derives fit vs (.step c) →
      Derives fit (ts ++ t :: (us ++ vs))
        (.one .index (.compound span (.slice a.isSome b.isSome c.isSome)
          (a.toList ++ b.toList ++ c.toList)))
  | absent : Derives fit [] (.optional none)
  | present {ts : List Token} {e : Expr} : Derives fit ts (.one (.rule .expression) e) →
      Derives fit ts (.optional (some e))
  | noStep : Derives fit [] (.step none)
  | step {t : Token} {ts : List Token} {e : Option Expr} : isOp ":" t = true →
      Derives fit ts (.optional e) → Derives fit (t :: ts) (.step e)
  -- Lists
  | noMore {sep : Separator} {k : Kind} : Derives fit [] (.more sep k [])
  | more {t : Token} {ts us : List Token} {sep : Separator} {k : Kind} {e : Expr} {es : List Expr} :
      sep.test t = true → Derives fit ts (.one k e) → Derives fit us (.more sep k es) →
      Derives fit (t :: (ts ++ us)) (.more sep k (e :: es))
  | single {ts : List Token} {k : Kind} {e : Expr} : Derives fit ts (.one k e) →
      (k = .index → isStarred e = false) → Derives fit ts (.several k e)
  | several {ts us vs : List Token} {k : Kind} {e : Expr} {es : List Expr} (span : Span) :
      Derives fit ts (.one k e) → Derives fit us (.more .comma k es) → Trail vs →
      (es ≠ [] ∨ vs ≠ [] ∨ k = .index ∧ isStarred e = true) →
      Derives fit (ts ++ (us ++ vs)) (.several k (.compound span (.tuple .load) (e :: es)))
  | noChain : Derives fit [] (.chain [] [])
  | chain {ts us vs : List Token} {o : CmpOp} {os : List CmpOp} {e : Expr} {es : List Expr} :
      Compares ts o → Derives fit us (.one (.rule .bitOr) e) → Derives fit vs (.chain os es) →
      Derives fit (ts ++ (us ++ vs)) (.chain (o :: os) (e :: es))
  | pair {t : Token} {ts us : List Token} {k v : Expr} :
      Derives fit ts (.one (.rule .expression) k) → isOp ":" t = true →
      Derives fit us (.one (.rule .expression) v) → Derives fit (ts ++ t :: us) (.pair (some k, v))
  | unpackedPair {t : Token} {ts : List Token} {v : Expr} : isOp "**" t = true →
      Derives fit ts (.one (.rule .bitOr) v) → Derives fit (t :: ts) (.pair (none, v))
  | noPairs : Derives fit [] (.pairs [])
  | pairs {t : Token} {ts us : List Token} {p : Option Expr × Expr}
      {ps : List (Option Expr × Expr)} : isOp "," t = true → Derives fit ts (.pair p) →
      Derives fit us (.pairs ps) → Derives fit (t :: (ts ++ us)) (.pairs (p :: ps))
  | noParts : Derives fit [] (.parts [])
  | part {t u : Token} {as ts us vs ws : List Token} {isAsync : Bool} {e i target : Expr}
      {fs : List Expr} {gs : List Generator} : Leads as isAsync → isWord "for" t = true →
      Derives fit ts (.several .target e) → Expr.asTarget .store true e = some target →
      isWord "in" u = true → Derives fit us (.one (.rule .disjunction) i) →
      Derives fit vs (.more (.word "if") (.rule .disjunction) fs) → Derives fit ws (.parts gs) →
      Derives fit (as ++ t :: (ts ++ u :: (us ++ (vs ++ ws))))
        (.parts (.mk target i fs isAsync :: gs))
  -- Arguments and parameters
  | argument {ts : List Token} {e : Expr} : Derives fit ts (.one (.rule .expression) e) →
      Derives fit ts (.argument (.positional e))
  | starArgument {t : Token} {ts : List Token} {e : Expr} (span : Span) : isOp "*" t = true →
      Derives fit ts (.one (.rule .expression) e) → Derives fit (t :: ts) (.argument (.star span e))
  | namedArgument {t u : Token} {ts : List Token} {e : Expr} (span : Span) :
      isIdentifier t = true → isOp "=" u = true → Derives fit ts (.one (.rule .expression) e) →
      Derives fit (t :: u :: ts) (.argument (.named span t.text e))
  | unpackedArgument {t : Token} {ts : List Token} {e : Expr} (span : Span) : isOp "**" t = true →
      Derives fit ts (.one (.rule .expression) e) →
      Derives fit (t :: ts) (.argument (.unpacked span e))
  | noArguments : Derives fit [] (.arguments [])
  | arguments {t : Token} {ts us : List Token} {a : Argument} {as : List Argument} :
      isOp "," t = true → Derives fit ts (.argument a) → Derives fit us (.arguments as) →
      Derives fit (t :: (ts ++ us)) (.arguments (a :: as))
  | nothingGiven : Derives fit [] (.given [])
  | given {ts us vs : List Token} {a : Argument} {as : List Argument} :
      Derives fit ts (.argument a) → Derives fit us (.arguments as) → Trail vs →
      Argument.inOrder [] (a :: as) = true → Derives fit (ts ++ (us ++ vs)) (.given (a :: as))
  | slash {t : Token} : isOp "/" t = true → Derives fit [t] (.entry .slash)
  | loneStar {t : Token} : isOp "*" t = true → Derives fit [t] (.entry .loneStar)
  | star {t u : Token} : isOp "*" t = true → isIdentifier u = true →
      Derives fit [t, u] (.entry (.star ⟨u.span, u.text⟩))
  | doubleStar {t u : Token} : isOp "**" t = true → isIdentifier u = true →
      Derives fit [t, u] (.entry (.doubleStar ⟨u.span, u.text⟩))
  | parameter {t : Token} : isIdentifier t = true →
      Derives fit [t] (.entry (.plain ⟨t.span, t.text⟩ none))
  | parameterDefault {t u : Token} {ts : List Token} {e : Expr} : isIdentifier t = true →
      isOp "=" u = true → Derives fit ts (.one (.rule .expression) e) →
      Derives fit (t :: u :: ts) (.entry (.plain ⟨t.span, t.text⟩ (some e)))
  | noEntries : Derives fit [] (.entries [])
  | entries {t : Token} {ts us : List Token} {p : Entry} {ps : List Entry} : isOp "," t = true →
      Derives fit ts (.entry p) → Derives fit us (.entries ps) →
      Derives fit (t :: (ts ++ us)) (.entries (p :: ps))
  | noParameters : Derives fit [] (.parameters [])
  | parameters {ts us vs : List Token} {p : Entry} {ps : List Entry} : Derives fit ts (.entry p) →
      Derives fit us (.entries ps) → Trail vs → Derives fit (ts ++ (us ++ vs)) (.parameters (p :: ps))

end Covenant.Grammar
