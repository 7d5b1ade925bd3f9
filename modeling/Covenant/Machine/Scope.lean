import Covenant.Machine.View

/-! # Scopes — what a name stands for

    A name that is local to an enclosing call is looked up there; in the body
    of a class the namespace of the class comes first.  Then come the names of
    the module, and then those that are known everywhere.  Private names are
    written out with the name of their class. -/

namespace Covenant.Machine

open Covenant.Tree

/-! ## Private names -/

/-- The name that a private name stands for inside a class: one with two underscores in front
    and not behind gets the name of the class, without its leading underscores, in front. -/
def privateName (owner : Option String) (name : String) : String :=
  match owner with
  | none => name
  | some c =>
    let bare := String.ofList (c.toList.dropWhile (· = '_'))
    if "__".isPrefixOf name && !(['_', '_'].isSuffixOf name.toList) && !name.contains '.'
        && !bare.isEmpty then
      "_" ++ bare ++ name
    else name

namespace Scope

/-- A private name where it is written. -/
def nameHere (s : Scope) (name : String) : String := privateName s.owner name

/-- The scope inside a call with a new namespace. -/
def inside (s : Scope) (names : Address) (locals : List String) : Scope :=
  { s with frames := ⟨names, locals⟩ :: s.frames, body := none }

end Scope

/-! ## Looking up -/

namespace Comp

/-- The names of a namespace. -/
def namesAt (a : Address) : Comp (Names Value) := do
  match (← heap).get? a with
  | some (.names ns) => pure ns
  | _ => pure []

/-- Gives a name a value in a namespace. -/
def setNameAt (a : Address) (name : String) (v : Value) : Comp Unit := do
  put a (.names (Names.set (← namesAt a) name v))

/-- The frame that a name is local to, and whether it is the innermost one. -/
def frameOf (name : String) : List Frame → Option (Frame × Bool)
  | [] => none
  | f :: fs =>
    if f.locals.contains name then some (f, true)
    else (frameOf name fs).map fun p => (p.1, false)

/-- The value of a name in the module or everywhere. -/
def lookupGlobal (s : Scope) (name : String) : Comp Value := do
  match (← namesAt s.globals).lookup name with
  | some v => pure v
  | none => ofOption .noName (builtinNames.lookup name)

/-- The value of a name in the calls around it, the module or everywhere. -/
def lookupAround (s : Scope) (name : String) : Comp Value :=
  match frameOf name s.frames with
  | some (f, innermost) => do
    match (← namesAt f.names).lookup name with
    | some v => pure v
    | none => fail (if innermost && s.body.isNone then .noLocal else .noName)
  | none => lookupGlobal s name

/-- The value of a name. -/
def lookup (s : Scope) (name : String) : Comp Value :=
  match s.body with
  | some body => do
    match (← namesAt body).lookup name with
    | some v => pure v
    | none => lookupAround s name
  | none => lookupAround s name

/-- The namespace in which a name is given a value. -/
def home (s : Scope) (name : String) : Address :=
  match s.body with
  | some body => body
  | none =>
    match frameOf name s.frames with
    | some (f, _) => f.names
    | none => s.globals

/-- Gives a name a value. -/
def store (s : Scope) (name : String) (v : Value) : Comp Unit := setNameAt (home s name) name v

/-- Removes a name. -/
def remove (s : Scope) (name : String) : Comp Unit := do
  let a := home s name
  let ns ← namesAt a
  if (ns.lookup name).isSome then put a (.names (Names.erase name ns)) else fail .noName

end Comp

/-! ## Local names -/

mutual

/-- The names that a target gives values to. -/
def targetNames : Expr → List String
  | .name _ id _ => [id]
  | .compound _ (.tuple _) ps | .compound _ (.list _) ps | .compound _ (.starred _) ps =>
    targetNamesAll ps
  | _ => []

/-- The names that several targets give values to. -/
def targetNamesAll : List Expr → List String
  | [] => []
  | e :: es => targetNames e ++ targetNamesAll es

end

mutual

/-- The names that a statement gives values to in its own scope. -/
def boundNames : Stmt → List String
  | .function h _ => [h.name]
  | .cls h _ => [h.name]
  | .delete ts => targetNamesAll ts
  | .assign ts _ => targetNamesAll ts
  | .update t _ _ => targetNames t
  | .annotated t _ _ => targetNames t
  | .forEach _ t _ b o => targetNames t ++ boundNamesAll b ++ boundNamesAll o
  | .loop _ b o | .branch _ b o => boundNamesAll b ++ boundNamesAll o
  | .within _ items b => items.flatMap (fun i => i.2.elim [] targetNames) ++ boundNamesAll b
  | .attempt b hs o f =>
    boundNamesAll b ++ boundNamesHandlers hs ++ boundNamesAll o ++ boundNamesAll f
  | .importing names | .importingFrom _ names _ => names.map fun a => a.asName.getD a.name
  | _ => []

/-- The names that a block gives values to. -/
def boundNamesAll : List Stmt → List String
  | [] => []
  | s :: ss => boundNames s ++ boundNamesAll ss

/-- The names that handlers give values to. -/
def boundNamesHandlers : List Handler → List String
  | [] => []
  | .mk _ name b :: hs => name.toList ++ boundNamesAll b ++ boundNamesHandlers hs

end

/-- The names that a block declares to belong to another scope. -/
def foreignNames (body : List Stmt) : List String :=
  body.flatMap fun
    | .declareGlobal names | .declareNonlocal names => names
    | _ => []

/-- The names that are local to a function. -/
def localNames (parameters : List String) (body : List Stmt) : List String :=
  parameters ++ (boundNamesAll body).filter fun n => !(foreignNames body).contains n

end Covenant.Machine
