import Covenant.Tree.Expr

/-! # Soundness of trees — what can be evaluated although it can be read

    The grammar admits trees that no evaluator takes: a parameter or a keyword
    given twice, a target that unpacks twice, a binding of the constant
    `__debug__`, and a comprehension that would have to suspend where nothing
    can. -/

namespace Covenant.Condition

open Covenant.Tree

/-- The name that nothing may bind. -/
def debugName : String := "__debug__"

/-- Whether no name occurs twice. -/
def allDistinct : List String → Bool
  | [] => true
  | n :: ns => !ns.contains n && allDistinct ns

/-- Whether an expression is an unpacking mark. -/
def isStarred : Expr → Bool
  | .compound _ (.starred _) _ => true
  | _ => false

/-- The iterable that is evaluated outside of a comprehension. -/
def firstIterable : List Generator → List Expr
  | [] => []
  | .mk _ i _ _ :: _ => [i]

mutual

/-- Whether evaluating an expression would suspend the scope it stands in. -/
def suspends : Expr → Bool
  | .name .. | .constant .. => false
  | .field _ v _ _ => suspends v
  | .call _ f as ks => suspends f || suspendsAny as || suspendsKeywords ks
  | .lambda _ _ kd ds _ => suspendsAny kd || suspendsAny ds
  | .comprehension _ kind es gs =>
    suspendsOutside gs || (kind != .generator && (suspendsAny es || suspendsInside true gs))
  | .compound _ .await _ => true
  | .compound _ _ ps => suspendsAny ps

/-- Whether one of several expressions would suspend. -/
def suspendsAny : List Expr → Bool
  | [] => false
  | e :: es => suspends e || suspendsAny es

/-- Whether the value of a keyword argument would suspend. -/
def suspendsKeywords : List Keyword → Bool
  | [] => false
  | .mk _ _ v :: ks => suspends v || suspendsKeywords ks

/-- Whether the first iterable of a comprehension would suspend. -/
def suspendsOutside : List Generator → Bool
  | [] => false
  | .mk _ i _ _ :: _ => suspends i

/-- Whether the scope of a comprehension would suspend; the first iterable is outside. -/
def suspendsInside (first : Bool) : List Generator → Bool
  | [] => false
  | .mk t i fs isAsync :: gs =>
    isAsync || suspends t || (!first && suspends i) || suspendsAny fs || suspendsInside false gs

end

mutual

/-- Whether an expression can be evaluated.  `nested` says that it stands directly in the
    scope of a comprehension. -/
def sound (nested : Bool) : Expr → Bool
  | .name _ id access => access == .load || id != debugName
  | .constant .. => true
  | .field _ v attr access => (access == .load || attr != debugName) && sound nested v
  | .call _ f as ks =>
    let names := ks.filterMap Keyword.name
    allDistinct names && !names.contains debugName
      && sound nested f && soundAll nested as && soundKeywords nested ks
  | .lambda _ b kd ds e =>
    allDistinct b.names && !b.names.contains debugName
      && soundAll nested kd && soundAll nested ds && sound false e
  | .comprehension _ kind es gs =>
    (kind == .generator || nested || !(suspendsAny es || suspendsInside true gs))
      && soundAll true es && soundGenerators nested gs
  | .compound _ form ps =>
    (match form with
      | .tuple .store | .list .store => decide ((ps.filter isStarred).length ≤ 1)
      | _ => true) && soundAll nested ps

/-- Whether several expressions can be evaluated. -/
def soundAll (nested : Bool) : List Expr → Bool
  | [] => true
  | e :: es => sound nested e && soundAll nested es

/-- Whether the values of keyword arguments can be evaluated. -/
def soundKeywords (nested : Bool) : List Keyword → Bool
  | [] => true
  | .mk _ _ v :: ks => sound nested v && soundKeywords nested ks

/-- Whether the parts of a comprehension can be evaluated.  `outer` is where the next
    iterable stands. -/
def soundGenerators (outer : Bool) : List Generator → Bool
  | [] => true
  | .mk t i fs _ :: gs =>
    !isStarred t && sound true t && sound outer i && soundAll true fs && soundGenerators true gs

end

end Covenant.Condition
