import Covenant.Number.Shortest
import Covenant.Text.Quoted
import Covenant.Tree.Expr

/-! # Dumps — a tree as text, field by field

    A node is written as its kind with its fields by name; absent optional
    fields are left out, lists are always written.  On request the place of
    every expression, parameter and keyword argument follows its fields. -/

namespace Covenant.Tree

open Number Text

/-! ## Constants -/

/-- The text of a constant's value. -/
def Constant.text : Constant → String
  | .none => "None"
  | .ellipsis => "Ellipsis"
  | .bool b => if b then "True" else "False"
  | .int n => toString n
  | .float x => valueLayout.text x
  | .imaginary x => imaginaryLayout.text x ++ "j"
  | .str s _ => quote s
  | .bytes bs => quoteBytes bs

/-! ## Names of operators -/

/-- The node kind of an access. -/
def Access.label : Access → String
  | .load => "Load()"
  | .store => "Store()"
  | .delete => "Del()"

/-- The node kind of a connective. -/
def BoolOp.label : BoolOp → String
  | .and => "And()"
  | .or => "Or()"

/-- The node kind of an operator with two operands. -/
def BinOp.label : BinOp → String
  | .add => "Add()"
  | .sub => "Sub()"
  | .mult => "Mult()"
  | .matMult => "MatMult()"
  | .div => "Div()"
  | .mod => "Mod()"
  | .pow => "Pow()"
  | .shiftLeft => "LShift()"
  | .shiftRight => "RShift()"
  | .bitOr => "BitOr()"
  | .bitXor => "BitXor()"
  | .bitAnd => "BitAnd()"
  | .floorDiv => "FloorDiv()"

/-- The node kind of an operator with one operand. -/
def UnaryOp.label : UnaryOp → String
  | .invert => "Invert()"
  | .not => "Not()"
  | .plus => "UAdd()"
  | .minus => "USub()"

/-- The node kind of a comparison. -/
def CmpOp.label : CmpOp → String
  | .eq => "Eq()"
  | .notEq => "NotEq()"
  | .lt => "Lt()"
  | .ltE => "LtE()"
  | .gt => "Gt()"
  | .gtE => "GtE()"
  | .is => "Is()"
  | .isNot => "IsNot()"
  | .member => "In()"
  | .notMember => "NotIn()"

/-- The node kind of a comprehension. -/
def ComprehensionKind.label : ComprehensionKind → String
  | .list => "ListComp"
  | .set => "SetComp"
  | .dict => "DictComp"
  | .generator => "GeneratorExp"

/-! ## Nodes -/

/-- A bracketed list. -/
def bracketed (items : List String) : String :=
  "[" ++ ", ".intercalate items ++ "]"

/-- A field, left out when it is absent. -/
def optionalField (name : String) : Option String → List String
  | none => []
  | some v => [name ++ "=" ++ v]

/-- The fields that give a node's place. -/
def placeFields (positions : Bool) (s : Span) : List String :=
  if positions then
    [s!"lineno={s.start.line}", s!"col_offset={s.start.col}",
     s!"end_lineno={s.stop.line}", s!"end_col_offset={s.stop.col}"]
  else []

/-- A node of a kind with its fields and its place. -/
def node (kind : String) (fields : List String) (place : List String) : String :=
  kind ++ "(" ++ ", ".intercalate (fields ++ place) ++ ")"

/-- A parameter name. -/
def Binder.dump (positions : Bool) (b : Binder) : String :=
  node "arg" ["arg=" ++ quote b.name] (placeFields positions b.span)

/-- Gives the defaults, in order, to the parameters that have one. -/
def spreadDefaults : List Bool → List String → List String
  | [], _ => []
  | true :: flags, d :: ds => d :: spreadDefaults flags ds
  | _ :: flags, ds => "None" :: spreadDefaults flags ds

/-- The fields of a compound expression from the dumps of its parts. -/
def Form.fields (form : Form) (parts : List String) : String × List String :=
  let part (i : Nat) : String := parts.getD i ""
  match form with
  | .boolOp op => ("BoolOp", ["op=" ++ op.label, "values=" ++ bracketed parts])
  | .namedExpr => ("NamedExpr", ["target=" ++ part 0, "value=" ++ part 1])
  | .binOp op => ("BinOp", ["left=" ++ part 0, "op=" ++ op.label, "right=" ++ part 1])
  | .unaryOp op => ("UnaryOp", ["op=" ++ op.label, "operand=" ++ part 0])
  | .ifExp => ("IfExp", ["test=" ++ part 0, "body=" ++ part 1, "orelse=" ++ part 2])
  | .dict keyed =>
    let keys := keyed.countP id
    ("Dict", ["keys=" ++ bracketed (spreadDefaults keyed (parts.take keys)),
      "values=" ++ bracketed (parts.drop keys)])
  | .set => ("Set", ["elts=" ++ bracketed parts])
  | .await => ("Await", ["value=" ++ part 0])
  | .yield => ("Yield", optionalField "value" parts.head?)
  | .yieldFrom => ("YieldFrom", ["value=" ++ part 0])
  | .compare ops =>
    ("Compare", ["left=" ++ part 0, "ops=" ++ bracketed (ops.map CmpOp.label),
      "comparators=" ++ bracketed (parts.drop 1)])
  | .formattedValue conversion =>
    ("FormattedValue", ["value=" ++ part 0,
      "conversion=" ++ (match conversion with
        | none => "-1"
        | some c => toString c.toNat)] ++ optionalField "format_spec" parts[1]?)
  | .joinedStr => ("JoinedStr", ["values=" ++ bracketed parts])
  | .subscript a =>
    ("Subscript", ["value=" ++ part 0, "slice=" ++ part 1, "ctx=" ++ a.label])
  | .starred a => ("Starred", ["value=" ++ part 0, "ctx=" ++ a.label])
  | .list a => ("List", ["elts=" ++ bracketed parts, "ctx=" ++ a.label])
  | .tuple a => ("Tuple", ["elts=" ++ bracketed parts, "ctx=" ++ a.label])
  | .slice lower upper step =>
    let second := if lower then 1 else 0
    let third := if upper then second + 1 else second
    ("Slice", optionalField "lower" (if lower then parts[0]? else none)
      ++ optionalField "upper" (if upper then parts[second]? else none)
      ++ optionalField "step" (if step then parts[third]? else none))

mutual

/-- The dump of an expression. -/
def Expr.dump (positions : Bool) : Expr → String
  | .name s id a =>
    node "Name" ["id=" ++ quote id, "ctx=" ++ a.label] (placeFields positions s)
  | .constant s v =>
    let kind := match v with
      | .str _ true => ["kind='u'"]
      | _ => []
    node "Constant" (("value=" ++ v.text) :: kind) (placeFields positions s)
  | .field s v n a =>
    node "Attribute" ["value=" ++ v.dump positions, "attr=" ++ quote n, "ctx=" ++ a.label]
      (placeFields positions s)
  | .call s f as ks =>
    node "Call" ["func=" ++ f.dump positions, "args=" ++ bracketed (dumpAll positions as),
      "keywords=" ++ bracketed (dumpKeywords positions ks)] (placeFields positions s)
  | .lambda s b kd ds e =>
    let args (bs : List Binder) : String := bracketed (bs.map (Binder.dump positions))
    let arguments := node "arguments"
      (["posonlyargs=" ++ args b.positionalOnly, "args=" ++ args b.positional]
        ++ optionalField "vararg" (b.variadic.map (Binder.dump positions))
        ++ ["kwonlyargs=" ++ args (b.named.map (·.1)),
          "kw_defaults=" ++ bracketed (spreadDefaults (b.named.map (·.2)) (dumpAll positions kd))]
        ++ optionalField "kwarg" (b.variadicNamed.map (Binder.dump positions))
        ++ ["defaults=" ++ bracketed (dumpAll positions ds)]) []
    node "Lambda" ["args=" ++ arguments, "body=" ++ e.dump positions] (placeFields positions s)
  | .comprehension s k es gs =>
    let elements := match k, dumpAll positions es with
      | .dict, [key, value] => ["key=" ++ key, "value=" ++ value]
      | _, ds => ds.map ("elt=" ++ ·)
    node k.label (elements ++ ["generators=" ++ bracketed (dumpGenerators positions gs)])
      (placeFields positions s)
  | .compound s form ps =>
    let (kind, fields) := form.fields (dumpAll positions ps)
    node kind fields (placeFields positions s)

/-- The dumps of several expressions. -/
def dumpAll (positions : Bool) : List Expr → List String
  | [] => []
  | e :: es => e.dump positions :: dumpAll positions es

/-- The dumps of keyword arguments. -/
def dumpKeywords (positions : Bool) : List Keyword → List String
  | [] => []
  | .mk s n v :: ks =>
    node "keyword" (optionalField "arg" (n.map quote) ++ ["value=" ++ v.dump positions])
      (placeFields positions s) :: dumpKeywords positions ks

/-- The dumps of the parts of a comprehension. -/
def dumpGenerators (positions : Bool) : List Generator → List String
  | [] => []
  | .mk t i fs a :: gs =>
    node "comprehension" ["target=" ++ t.dump positions, "iter=" ++ i.dump positions,
      "ifs=" ++ bracketed (dumpAll positions fs), "is_async=" ++ (if a then "1" else "0")] []
      :: dumpGenerators positions gs

end

/-- The dump of a whole condition. -/
def Expr.dumpCondition (positions : Bool) (e : Expr) : String :=
  node "Expression" ["body=" ++ e.dump positions] []

end Covenant.Tree
