import Covenant.Condition.Old
import Covenant.Condition.Parse
import Covenant.Condition.Splice

/-! # Rewriting conditions for enforcement

    Every call of `old` becomes a look-up of the captured value, and a bare
    name of a field becomes a field of the instance, unless it is shadowed or
    bound inside the condition.

    * A `lambda` binds its parameters in its body; its defaults stand outside.
    * A comprehension binds its targets everywhere but in its first iterable.
    * Each change is also recorded as a text edit, so that the rewritten text
      can be had without printing the tree. -/

namespace Covenant.Condition

open Text Covenant.Tree

/-- How a condition is rewritten. -/
structure Strategy where
  lookup : String := lookupName
  self : String := selfName
  fields : List String := []
  shadowed : List String := []

/-- The strategy inside a type: its fields, hidden by some names. -/
def Strategy.memberScope (fields shadowed : List String) : Strategy :=
  { fields := fields, shadowed := shadowed }

mutual

/-- Every name in a tree, whatever it is used for. -/
def allNames : Expr → List String
  | .name _ id _ => [id]
  | .constant .. => []
  | .field _ v _ _ => allNames v
  | .call _ f as ks => allNames f ++ allNamesAll as ++ allNamesKeywords ks
  | .lambda _ _ kd ds e => allNamesAll kd ++ allNamesAll ds ++ allNames e
  | .comprehension _ _ es gs => allNamesAll es ++ allNamesGenerators gs
  | .compound _ _ ps => allNamesAll ps

/-- Every name in a list of trees. -/
def allNamesAll : List Expr → List String
  | [] => []
  | e :: es => allNames e ++ allNamesAll es

/-- Every name in keyword arguments. -/
def allNamesKeywords : List Keyword → List String
  | [] => []
  | .mk _ _ v :: ks => allNames v ++ allNamesKeywords ks

/-- Every name in the parts of a comprehension. -/
def allNamesGenerators : List Generator → List String
  | [] => []
  | .mk t i fs _ :: gs => allNames t ++ allNames i ++ allNamesAll fs ++ allNamesGenerators gs

end

/-- A rewritten tree with the edits in the order they were made. -/
abbrev Rewritten (α : Type) := α × List Edit

/-- The look-up of a captured field, at the place of the call it replaces. -/
def lookupCall (s : Strategy) (span : Span) (field : String) : Expr :=
  .call span (.name span s.lookup .load) [.constant span (.str field false)] []

/-- A field of the instance, at the place of the name it replaces. -/
def memberField (s : Strategy) (span : Span) (id : String) : Expr :=
  .field span (.name span s.self .load) id .load

/-- The edit that goes with a look-up. -/
def lookupEdit (s : Strategy) (span : Span) (field : String) : Edit :=
  ⟨span, s.lookup ++ "(" ++ quote field ++ ")"⟩

/-- The edit that goes with a field of the instance. -/
def memberEdit (s : Strategy) (span : Span) (id : String) : Edit :=
  ⟨span, s.self ++ "." ++ id⟩

/-- The field that the only argument of a call of `old` names. -/
def lookedUpField (s : Strategy) (args : List Expr) : String :=
  (args.head?.bind (operandField s.self)).getD ""

mutual

/-- Rewrites a tree in which `bound` are the names that do not stand for fields. -/
def rewriteWith (s : Strategy) (bound : List String) : Expr → Rewritten Expr
  | .name span id access =>
    if access = .load ∧ s.fields.contains id = true ∧ bound.contains id = false then
      (memberField s span id, [memberEdit s span id])
    else (.name span id access, [])
  | .constant span v => (.constant span v, [])
  | .field span v n a =>
    let (v, es) := rewriteWith s bound v
    (.field span v n a, es)
  | .call span f as ks =>
    if isOldCall (.call span f as ks) then
      let field := lookedUpField s as
      (lookupCall s span field, [lookupEdit s span field])
    else
      let (f, es) := rewriteWith s bound f
      let (as, es') := rewriteAll s bound as
      let (ks, es'') := rewriteKeywords s bound ks
      (.call span f as ks, es ++ es' ++ es'')
  | .lambda span b kd ds e =>
    let (kd, es) := rewriteAll s bound kd
    let (ds, es') := rewriteAll s bound ds
    let (e, es'') := rewriteWith s (b.names ++ bound) e
    (.lambda span b kd ds e, es ++ es' ++ es'')
  | .comprehension span k es gs =>
    let (gs, bound, edits) := rewriteGenerators s bound gs
    let (es, edits') := rewriteAll s bound es
    (.comprehension span k es gs, edits ++ edits')
  | .compound span form ps =>
    let (ps, es) := rewriteAll s bound ps
    (.compound span form ps, es)

/-- Rewrites a list of trees. -/
def rewriteAll (s : Strategy) (bound : List String) : List Expr → Rewritten (List Expr)
  | [] => ([], [])
  | e :: es =>
    let (e, edits) := rewriteWith s bound e
    let (es, edits') := rewriteAll s bound es
    (e :: es, edits ++ edits')

/-- Rewrites keyword arguments. -/
def rewriteKeywords (s : Strategy) (bound : List String) :
    List Keyword → Rewritten (List Keyword)
  | [] => ([], [])
  | .mk span n v :: ks =>
    let (v, edits) := rewriteWith s bound v
    let (ks, edits') := rewriteKeywords s bound ks
    (.mk span n v :: ks, edits ++ edits')

/-- Rewrites the parts of a comprehension; the names bound by one part are bound in its
    filters and in all that follows.  The targets stay as they are. -/
def rewriteGenerators (s : Strategy) (bound : List String) :
    List Generator → List Generator × List String × List Edit
  | [] => ([], bound, [])
  | .mk t i fs a :: gs =>
    let (i, edits) := rewriteWith s bound i
    let bound := allNames t ++ bound
    let (fs, edits') := rewriteAll s bound fs
    let (gs, bound, edits'') := rewriteGenerators s bound gs
    (.mk t i fs a :: gs, bound, edits ++ edits' ++ edits'')

end

/-- Rewrites a condition, once all its calls of `old` are right. -/
def rewriteWithEdits (s : Strategy) (e : Expr) : Except OldFault (Rewritten Expr) := do
  let _ ← references none s.self e
  pure (rewriteWith s s.shadowed e)

/-- The rewritten tree. -/
def rewrite (s : Strategy) (e : Expr) : Except OldFault Expr :=
  (rewriteWithEdits s e).map (·.1)

/-- Why a condition has no rewritten text. -/
inductive RenderFault where
  | condition (fault : ConditionFault)
  | old (fault : OldFault)
  | splice (fault : SpliceFault)
  deriving DecidableEq

/-- The rewritten text of a condition whose tree is known. -/
def renderTree (s : Strategy) (text : String) (e : Expr) : Except RenderFault String := do
  let (_, edits) ← (rewriteWithEdits s e).mapError .old
  (splice (strip text) edits).mapError .splice

/-- The rewritten text of a condition. -/
def render (s : Strategy) (text : String) : Except RenderFault String := do
  let e ← (parse text).mapError .condition
  renderTree s text e

end Covenant.Condition
