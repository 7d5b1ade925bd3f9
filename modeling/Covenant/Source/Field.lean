import Covenant.Source.Marker

/-! # Fields — what the methods of a class can read

    A class declares fields by annotations, assignments, slots, properties and
    assignments to fields of the instance, and it has those of its bases in
    the same text.  The search visits every class once, so that cycles of
    bases do no harm. -/

namespace Covenant.Source

open Declaration Covenant.Tree Value

/-- A class definition. -/
structure ClassDef where
  head : ClassHead
  body : List Stmt

namespace ClassDef

/-- The statement of a class definition. -/
def toStmt (c : ClassDef) : Stmt := .cls c.head c.body

/-- The name of the class. -/
def name (c : ClassDef) : String := c.head.name

/-- The names by which the bases are given. -/
def baseNames (c : ClassDef) : List String :=
  c.head.bases.filterMap fun
    | .name _ id _ => some id
    | _ => none

end ClassDef

/-- Why the fields of a class cannot be told. -/
inductive FieldFault where
  /-- The slots are a literal that has no items. -/
  | slotsNotIterable
  deriving DecidableEq, Repr

/-- A name between double underscores, which is no field. -/
def isReserved (name : String) : Bool :=
  "__".isPrefixOf name && ['_', '_'].isSuffixOf name.toList

/-- The names in the value of the slots. -/
def slotNames (value : Expr) : Except FieldFault (List String) :=
  match literal? value with
  | none => .ok []
  | some (.str s) => .ok [s]
  | some d =>
    match d.items? with
    | some items => .ok (items.filterMap fun
        | .str s => some s
        | _ => none)
    | none => .error .slotsNotIterable

/-- The fields that one target of an assignment declares. -/
def targetFields (value : Expr) : Expr → Except FieldFault (List String)
  | .name _ "__slots__" _ => slotNames value
  | .name _ id _ => .ok [id]
  | _ => .ok []

/-- The fields that a statement in the body of a class declares. -/
def statementFields : Stmt → Except FieldFault (List String)
  | .annotated (.name _ id _) _ _ => .ok [id]
  | .assign targets value => do
    let found ← targets.mapM (targetFields value)
    pure found.flatten
  | .function h _ =>
    let isProperty := h.decorators.any fun d =>
      markerName d == some "property" || markerName d == some "cached_property"
    .ok (if isProperty then [h.name] else [])
  | _ => .ok []

/-- The field of the instance that an expression assigns to. -/
def assignedField? : Expr → Option String
  | .field _ (.name _ id _) attr .store => if id = selfName then some attr else none
  | _ => none

/-- The fields a class declares itself, in order and with repetitions: by the statements of
    its body, then by assignments to fields of the instance at any depth. -/
def declaredFields (c : ClassDef) : Except FieldFault (List String) := do
  let found ← c.body.mapM statementFields
  pure (found.flatten ++ c.toStmt.marks assignedField?)

/-- Adds names that are not reserved and not there yet. -/
def addFields (names more : List String) : List String :=
  more.foldl (fun names n =>
    if names.contains n || isReserved n then names else names ++ [n]) names

/-- The last class of a name. -/
def classNamed (classes : List ClassDef) (name : String) : Option ClassDef :=
  classes.reverse.find? (·.name == name)

/-- A search: the names found and the classes visited. -/
abbrev Found := Except FieldFault (List String × List String)

/-- The fields of a class and of its bases that have not been visited; the fields of bases
    come first. -/
def searchFields (classes : List ClassDef) : Nat → List String → ClassDef → Found
  | 0, seen, _ => .ok ([], seen)
  | fuel + 1, seen, c => do
    let (names, seen) ← c.baseNames.foldlM (fun (acc : List String × List String) base =>
      match classNamed classes base with
      | some b =>
        if acc.2.contains base then pure acc
        else do
          let (found, seen) ← searchFields classes fuel acc.2 b
          pure (addFields acc.1 found, seen)
      | none => pure acc) ([], c.name :: seen)
    let own ← declaredFields c
    pure (addFields names own, seen)

/-- The readable fields of a class among the classes of its text.  Each step into a base
    visits a new class, so their number bounds the depth. -/
def fieldsOf (classes : List ClassDef) (c : ClassDef) : Except FieldFault (List String) :=
  (searchFields classes (classes.length + 1) [] c).map (·.1)

/-- Whether a name is public, or that of the initializer. -/
def isPublicMember (name : String) : Bool :=
  name == publicInitializerName || !"_".isPrefixOf name

/-- The names that a statement in the body of a class defines. -/
def definedNames : Stmt → List String
  | .function h _ => [h.name]
  | .cls h _ => [h.name]
  | .assign targets _ => targets.filterMap fun
    | .name _ id _ => some id
    | _ => none
  | .annotated (.name _ id _) _ _ => [id]
  | _ => []

/-- The public names that a class defines. -/
def membersOf (c : ClassDef) : List String :=
  (c.body.flatMap definedNames).filter isPublicMember

end Covenant.Source
