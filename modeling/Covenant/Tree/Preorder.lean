import Covenant.Tree.Stmt

/-! # Preorder — trees from the root down, the left parts first

    `Expr.preorder` and `Stmt.preorder` list the marks of a tree: a node comes
    before its parts, and each part with all below it before the next one. -/

namespace Covenant.Tree

variable {α : Type}

mutual

/-- The marks of an expression, each node before its parts. -/
def Expr.preorder (mark : Expr → Option α) : Expr → List α
  | .name s id a => (mark (.name s id a)).toList
  | .constant s c => (mark (.constant s c)).toList
  | .field s v n a => (mark (.field s v n a)).toList ++ v.preorder mark
  | .call s f as ks =>
    (mark (.call s f as ks)).toList ++ f.preorder mark ++ preorderAll mark as
      ++ preorderKeywords mark ks
  | .lambda s b kd ds e =>
    (mark (.lambda s b kd ds e)).toList ++ preorderAll mark kd ++ preorderAll mark ds
      ++ e.preorder mark
  | .comprehension s k es gs =>
    (mark (.comprehension s k es gs)).toList ++ preorderAll mark es ++ preorderGenerators mark gs
  | .compound s f ps => (mark (.compound s f ps)).toList ++ preorderAll mark ps

/-- The marks of several expressions. -/
def preorderAll (mark : Expr → Option α) : List Expr → List α
  | [] => []
  | e :: es => e.preorder mark ++ preorderAll mark es

/-- The marks of named arguments. -/
def preorderKeywords (mark : Expr → Option α) : List Keyword → List α
  | [] => []
  | .mk _ _ v :: ks => v.preorder mark ++ preorderKeywords mark ks

/-- The marks of the parts of a comprehension. -/
def preorderGenerators (mark : Expr → Option α) : List Generator → List α
  | [] => []
  | .mk t i fs _ :: gs =>
    t.preorder mark ++ i.preorder mark ++ preorderAll mark fs ++ preorderGenerators mark gs

end

/-- The marks of an expression that may be absent. -/
def preorderOption (mark : Expr → Option α) : Option Expr → List α
  | none => []
  | some e => e.preorder mark

/-- The marks of a parameter list. -/
def Formals.preorder (mark : Expr → Option α) (f : Formals) : List α :=
  (f.positionalOnly ++ f.positional ++ f.variadic.toList ++ f.named.map (·.1)).flatMap
      (fun p => preorderOption mark p.hint)
    ++ f.named.flatMap (fun p => preorderOption mark p.2)
    ++ f.variadicNamed.toList.flatMap (fun p => preorderOption mark p.hint)
    ++ preorderAll mark f.defaults

mutual

/-- The marks of a pattern. -/
def Pattern.preorder (mark : Expr → Option α) : Pattern → List α
  | .value e | .singleton e => e.preorder mark
  | .sequence ps | .or ps => preorderPatterns mark ps
  | .mapping ks ps _ => preorderAll mark ks ++ preorderPatterns mark ps
  | .cls f ps _ ks =>
    f.preorder mark ++ preorderPatterns mark ps ++ preorderPatterns mark ks
  | .star _ | .as none _ => []
  | .as (some p) _ => p.preorder mark

/-- The marks of several patterns. -/
def preorderPatterns (mark : Expr → Option α) : List Pattern → List α
  | [] => []
  | p :: ps => p.preorder mark ++ preorderPatterns mark ps

end

mutual

/-- The marks of a statement, each part before the next one. -/
def Stmt.preorder (mark : Expr → Option α) : Stmt → List α
  | .function h b =>
    h.formals.preorder mark ++ preorderBlock mark b ++ preorderAll mark h.decorators
      ++ preorderOption mark h.returns
  | .cls h b =>
    preorderAll mark h.bases ++ preorderKeywords mark h.keywords ++ preorderBlock mark b
      ++ preorderAll mark h.decorators
  | .ret v => preorderOption mark v
  | .delete ts => preorderAll mark ts
  | .assign ts v => preorderAll mark ts ++ v.preorder mark
  | .update t _ v => t.preorder mark ++ v.preorder mark
  | .annotated t a v => t.preorder mark ++ a.preorder mark ++ preorderOption mark v
  | .forEach _ t i b o =>
    t.preorder mark ++ i.preorder mark ++ preorderBlock mark b ++ preorderBlock mark o
  | .loop t b o | .branch t b o =>
    t.preorder mark ++ preorderBlock mark b ++ preorderBlock mark o
  | .within _ items b =>
    items.flatMap (fun i => i.1.preorder mark ++ preorderOption mark i.2) ++ preorderBlock mark b
  | .select s cs => s.preorder mark ++ preorderCases mark cs
  | .raising e c => preorderOption mark e ++ preorderOption mark c
  | .attempt b hs o f =>
    preorderBlock mark b ++ preorderHandlers mark hs ++ preorderBlock mark o
      ++ preorderBlock mark f
  | .assertion t m => t.preorder mark ++ preorderOption mark m
  | .importing _ | .importingFrom .. | .declareGlobal _ | .declareNonlocal _
  | .pass | .leave | .again => []
  | .expr v => v.preorder mark

/-- The marks of a block. -/
def preorderBlock (mark : Expr → Option α) : List Stmt → List α
  | [] => []
  | s :: ss => s.preorder mark ++ preorderBlock mark ss

/-- The marks of the alternatives of a `match` statement. -/
def preorderCases (mark : Expr → Option α) : List Case → List α
  | [] => []
  | .mk p g b :: cs =>
    p.preorder mark ++ preorderOption mark g ++ preorderBlock mark b ++ preorderCases mark cs

/-- The marks of the handlers of a `try` statement. -/
def preorderHandlers (mark : Expr → Option α) : List Handler → List α
  | [] => []
  | .mk t _ b :: hs =>
    preorderOption mark t ++ preorderBlock mark b ++ preorderHandlers mark hs

end

end Covenant.Tree
