import Covenant.Tree.Layers

/-! # Statement trees

    The statements of a program text.  Definitions keep their parameters with
    annotations and defaults; patterns keep the expressions they contain.
    `Stmt.layers` extends the breadth-first walk of expressions. -/

namespace Covenant.Tree

/-- A parameter of a definition. -/
structure Formal where
  span : Span
  name : String
  hint : Option Expr

/-- The parameters of a definition, each group in order. -/
structure Formals where
  positionalOnly : List Formal
  positional : List Formal
  /-- Defaults of the last positional parameters. -/
  defaults : List Expr
  variadic : Option Formal
  named : List (Formal × Option Expr)
  variadicNamed : Option Formal

/-- A definition without its body. -/
structure FunctionHead where
  isAsync : Bool
  name : String
  formals : Formals
  decorators : List Expr
  returns : Option Expr

/-- A class without its body. -/
structure ClassHead where
  name : String
  bases : List Expr
  keywords : List Keyword
  decorators : List Expr

/-- An imported name and the name it is bound to, if that differs. -/
structure Alias where
  name : String
  asName : Option String

/-- A pattern of a `match` statement. -/
inductive Pattern where
  | value (e : Expr)
  | singleton (e : Expr)
  | sequence (ps : List Pattern)
  | mapping (keys : List Expr) (ps : List Pattern) (rest : Option String)
  | cls (func : Expr) (ps : List Pattern) (attrs : List String) (kwds : List Pattern)
  | star (name : Option String)
  | as (pattern : Option Pattern) (name : Option String)
  | or (ps : List Pattern)

mutual

/-- A statement. -/
inductive Stmt where
  | function (head : FunctionHead) (body : List Stmt)
  | cls (head : ClassHead) (body : List Stmt)
  | ret (value : Option Expr)
  | delete (targets : List Expr)
  | assign (targets : List Expr) (value : Expr)
  | update (target : Expr) (op : BinOp) (value : Expr)
  | annotated (target annotation : Expr) (value : Option Expr)
  | forEach (isAsync : Bool) (target iter : Expr) (body orElse : List Stmt)
  | loop (test : Expr) (body orElse : List Stmt)
  | branch (test : Expr) (body orElse : List Stmt)
  | within (isAsync : Bool) (items : List (Expr × Option Expr)) (body : List Stmt)
  | select (subject : Expr) (cases : List Case)
  | raising (exc cause : Option Expr)
  | attempt (body : List Stmt) (handlers : List Handler) (orElse final : List Stmt)
  | assertion (test : Expr) (message : Option Expr)
  | importing (names : List Alias)
  | importingFrom (module : Option String) (names : List Alias) (level : Nat)
  | declareGlobal (names : List String)
  | declareNonlocal (names : List String)
  | expr (value : Expr)
  | pass
  | leave
  | again

/-- One alternative of a `match` statement. -/
inductive Case where
  | mk (pattern : Pattern) (guard : Option Expr) (body : List Stmt)

/-- One handler of a `try` statement. -/
inductive Handler where
  | mk (type : Option Expr) (name : Option String) (body : List Stmt)

end

instance : Inhabited Stmt := ⟨.pass⟩

/-! ## Layers of statements -/

variable {α : Type}

/-- The layers of an optional tree. -/
def layersOption (mark : Expr → Option α) : Option Expr → List (List α)
  | none => []
  | some e => e.layers mark

/-- Several forests side by side. -/
def besidesAll : List (List (List α)) → List (List α)
  | [] => []
  | f :: fs => besides f (besidesAll fs)

/-- The layers of one parameter: its annotation stands a layer below it. -/
def Formal.layers (mark : Expr → Option α) (f : Formal) : List (List α) :=
  below [] (layersOption mark f.hint)

/-- The layers of a parameter list. -/
def Formals.layers (mark : Expr → Option α) (f : Formals) : List (List α) :=
  below [] (besidesAll
    ((f.positionalOnly ++ f.positional ++ f.variadic.toList).map (Formal.layers mark)
      ++ f.named.map (fun p => p.1.layers mark)
      ++ f.named.map (fun p => layersOption mark p.2)
      ++ f.variadicNamed.toList.map (Formal.layers mark)
      ++ [layersAll mark f.defaults]))

mutual

/-- The layers of the expressions of a pattern. -/
def Pattern.layers (mark : Expr → Option α) : Pattern → List (List α)
  | .value e | .singleton e => below [] (e.layers mark)
  | .sequence ps | .or ps => below [] (layersPatterns mark ps)
  | .mapping ks ps _ => below [] (besides (layersAll mark ks) (layersPatterns mark ps))
  | .cls f ps _ ks =>
    below [] (besides (f.layers mark) (besides (layersPatterns mark ps) (layersPatterns mark ks)))
  | .star _ => [[]]
  | .as none _ => [[]]
  | .as (some p) _ => below [] (p.layers mark)

/-- The layers of several patterns. -/
def layersPatterns (mark : Expr → Option α) : List Pattern → List (List α)
  | [] => []
  | p :: ps => besides (p.layers mark) (layersPatterns mark ps)

end

mutual

/-- The marks of a statement's tree by layers. -/
def Stmt.layers (mark : Expr → Option α) : Stmt → List (List α)
  | .function h b =>
    below [] (besidesAll [h.formals.layers mark, layersBlock mark b,
      layersAll mark h.decorators, layersOption mark h.returns])
  | .cls h b =>
    below [] (besidesAll [layersAll mark h.bases, layersKeywords mark h.keywords,
      layersBlock mark b, layersAll mark h.decorators])
  | .ret v => below [] (layersOption mark v)
  | .delete ts => below [] (layersAll mark ts)
  | .assign ts v => below [] (besides (layersAll mark ts) (v.layers mark))
  | .update t _ v => below [] (besides (t.layers mark) (v.layers mark))
  | .annotated t a v =>
    below [] (besidesAll [t.layers mark, a.layers mark, layersOption mark v])
  | .forEach _ t i b o =>
    below [] (besidesAll [t.layers mark, i.layers mark, layersBlock mark b, layersBlock mark o])
  | .loop t b o =>
    below [] (besidesAll [t.layers mark, layersBlock mark b, layersBlock mark o])
  | .branch t b o =>
    below [] (besidesAll [t.layers mark, layersBlock mark b, layersBlock mark o])
  | .within _ items b =>
    below [] (besides
      (besidesAll (items.map fun i =>
        below [] (besides (i.1.layers mark) (layersOption mark i.2))))
      (layersBlock mark b))
  | .select s cs => below [] (besides (s.layers mark) (layersCases mark cs))
  | .raising e c => below [] (besides (layersOption mark e) (layersOption mark c))
  | .attempt b hs o f =>
    below [] (besidesAll [layersBlock mark b, layersHandlers mark hs, layersBlock mark o,
      layersBlock mark f])
  | .assertion t m => below [] (besides (t.layers mark) (layersOption mark m))
  | .importing _ | .importingFrom .. | .declareGlobal _ | .declareNonlocal _
  | .pass | .leave | .again => [[]]
  | .expr v => below [] (v.layers mark)

/-- The marks of a block by layers. -/
def layersBlock (mark : Expr → Option α) : List Stmt → List (List α)
  | [] => []
  | s :: ss => besides (s.layers mark) (layersBlock mark ss)

/-- The marks of the alternatives of a `match` statement by layers. -/
def layersCases (mark : Expr → Option α) : List Case → List (List α)
  | [] => []
  | .mk p g b :: cs =>
    besides (below [] (besidesAll [p.layers mark, layersOption mark g, layersBlock mark b]))
      (layersCases mark cs)

/-- The marks of the handlers of a `try` statement by layers. -/
def layersHandlers (mark : Expr → Option α) : List Handler → List (List α)
  | [] => []
  | .mk t _ b :: hs =>
    besides (below [] (besides (layersOption mark t) (layersBlock mark b)))
      (layersHandlers mark hs)

end

/-- The marks of a statement in the order of a breadth-first walk. -/
def Stmt.marks (mark : Expr → Option α) (s : Stmt) : List α :=
  (s.layers mark).flatten

end Covenant.Tree
