import Covenant.Proofs.Protocol.Dialogue
import Mathlib.Logic.Function.Basic

/-! # Interleaving — many runs over one heap

    Any number of runs of wrappers share a heap with the program that calls
    them.  A step is a step of one run, of a clause that is being evaluated,
    or of the program; they come in any order, so a run may begin while the
    implementation of another one is at work, on the same instance and to any
    depth.

    * The program makes objects, learns addresses from objects that it knows,
      and changes what it knows as it likes, except for objects that cannot
      change in place.
    * A clause has no effects: it changes only objects that it has made.
    * A run asks the questions of its dialogue, which are those of its wrapper
      in the machine (`runWrapper_eq_carry`).  A field is preserved by the
      machine's own `surroundings`; clauses and implementations may answer
      anything. -/

namespace Covenant.Machine

open Wrapper

/-! ## Values of fields -/

/-- Whether an object cannot change in place. -/
def Object.isFixed : Object → Bool
  | .tuple _ | .frozenset _ => true
  | _ => false

/-- A value that a snapshot keeps apart: it is no object, or one that is copied or cannot
    change. -/
def Heap.KeptApart (h : Heap) (v : Value) : Prop :=
  ∀ a, v = .ref a → ∃ o, h.get? a = some o ∧ (o.isCopied = true ∨ o.isFixed = true)

/-! ## Strands -/

/-- A question with its answer, and the heap in which it was answered. -/
structure Moment where
  exchange : Exchange Value
  heap : Heap

/-- A run of a wrapper: how it began, what it has been answered, and what is left of it. -/
structure Strand where
  descriptor : Descriptor Value
  implementation : Value
  start : Activation Value
  past : List Moment
  rest : Dialogue Value (Option Value)

namespace Strand

/-- A run that is about to begin. -/
def begin (d : Descriptor Value) (implementation : Value) (a : Activation Value) : Strand where
  descriptor := d
  implementation := implementation
  start := a
  past := []
  rest := d.dialogue a

/-- The run after one more answer. -/
def answered (s : Strand) (m : Moment) (rest : Dialogue Value (Option Value)) : Strand :=
  { s with past := s.past ++ [m], rest := rest }

/-- What the run has been answered. -/
def history (s : Strand) : List (Exchange Value) := s.past.map (·.exchange)

end Strand

/-! ## Systems -/

/-- Who has made an object. -/
inductive Maker where
  | program | clause | wrapper
  deriving DecidableEq

/-- A heap with the makers of its objects, the addresses that the program has got hold of, and
    all runs. -/
structure System where
  heap : Heap := {}
  maker : Address → Maker := fun _ => .program
  known : List Address := []
  strands : List Strand := []

namespace System

/-- The object at an address was made by someone. -/
def Made (S : System) (m : Maker) (a : Address) : Prop :=
  a < S.heap.objects.size ∧ S.maker a = m

/-- The system after someone has made an object. -/
def make (S : System) (m : Maker) (o : Object) : System :=
  { S with
    heap := (S.heap.add o).2
    maker := Function.update S.maker S.heap.objects.size m }

/-- The system after an object was changed in place. -/
def change (S : System) (a : Address) (o : Object) : System :=
  { S with heap := S.heap.put a o }

/-- The system after a wrapper has preserved a value, which may have been copied. -/
def preserved (S : System) (h : Heap) : System :=
  { S with heap := h, maker := Function.update S.maker S.heap.objects.size .wrapper }

/-- The object at an address can change in place. -/
def Changeable (S : System) (a : Address) : Prop :=
  ∀ o, S.heap.get? a = some o → o.isFixed = false

end System

section Steps

variable (host : Host) (refers : Object → List Address)

/-- How the system can answer a question of a run. -/
inductive System.Answers (s : Strand) (S : System) : (q : Query Value) → q.Answer → System → Prop
    where
  | holds (kind : ViolationKind) (clause : EnforcedClause) (a : Activation Value) (b : Bool) :
      Answers s S (.holds kind clause a) b S
  | preserve {a : Activation Value} {field : String} {v w : Value} {h : Heap}
      (hread : getField host (a.receiver?.getD .none) field S.heap = .done v S.heap)
      (hapart : S.heap.KeptApart v)
      (hpreserve : (surroundings host s.descriptor s.implementation).preserve a field S.heap
        = .done w h) :
      Answers s S (.preserve a field) w (S.preserved h)
  | invoke (a : Activation Value) (v : Value) : Answers s S (.invoke a) v S

/-- The steps of a system.  Nothing depends on which addresses an object refers to, but that the
    program can learn them from it. -/
inductive System.Step : System → System → Prop where
  /-- The program makes an object of what it knows. -/
  | make {S : System} (o : Object) (hrefers : ∀ a ∈ refers o, a ∈ S.known) :
      Step S { S.make .program o with known := S.heap.objects.size :: S.known }
  /-- The program learns an address from an object that it knows. -/
  | learn {S : System} {a b : Address} {o : Object} (ha : a ∈ S.known)
      (ho : S.heap.get? a = some o) (hb : b ∈ refers o) :
      Step S { S with known := b :: S.known }
  /-- The program changes an object that it knows. -/
  | change {S : System} {a : Address} (o : Object) (ha : a ∈ S.known) (hc : S.Changeable a)
      (hrefers : ∀ b ∈ refers o, b ∈ S.known) : Step S (S.change a o)
  /-- A clause makes an object. -/
  | note {S : System} (o : Object) : Step S (S.make .clause o)
  /-- A clause changes an object that clauses have made. -/
  | revise {S : System} {a : Address} (o : Object) (ha : S.Made .clause a) (hc : S.Changeable a) :
      Step S (S.change a o)
  /-- A run begins. -/
  | enter {S : System} (d : Descriptor Value) (implementation : Value) (receiver? : Option Value)
      (arguments : Signature.Binding Value) :
      Step S { S with strands := S.strands ++
        [Strand.begin d implementation { receiver? := receiver?, arguments := arguments }] }
  /-- A run gets an answer. -/
  | advance {S S' : System} {before after : List Strand} {s : Strand} {q : Query Value}
      {next : q.Answer → Dialogue Value (Option Value)} {r : q.Answer}
      (hs : S.strands = before ++ s :: after) (hq : s.rest = .ask q next)
      (hr : S.Answers host s q r S') :
      Step S { S' with
        strands := before ++ s.answered ⟨⟨q, r⟩, S.heap⟩ (next r) :: after }

/-- The systems that can be reached when nothing is there at first. -/
inductive System.Reachable : System → Prop where
  | start : Reachable {}
  | step {S S' : System} : Reachable S → System.Step host refers S S' → Reachable S'

end Steps

section Reaching

variable {host : Host} {refers : Object → List Address} {S : System}

/-- A run preserves a field. -/
theorem System.Reachable.capture (hS : System.Reachable host refers S) (before after : List Strand)
    (s : Strand) (v w : Value) {a : Activation Value} {field : String}
    {next : Value → Dialogue Value (Option Value)} {h : Heap}
    (hs : S.strands = before ++ s :: after) (hq : s.rest = .ask (.preserve a field) next)
    (hread : getField host (a.receiver?.getD .none) field S.heap = .done v S.heap)
    (hapart : S.heap.KeptApart v)
    (hpreserve : (surroundings host s.descriptor s.implementation).preserve a field S.heap
      = .done w h) :
    System.Reachable host refers { S.preserved h with
      strands := before ++ s.answered ⟨⟨.preserve a field, w⟩, S.heap⟩ (next w) :: after } :=
  hS.step (.advance hs hq (.preserve hread hapart hpreserve))

/-- The implementation of a run answers. -/
theorem System.Reachable.call (hS : System.Reachable host refers S) (before after : List Strand)
    (s : Strand) (v : Value) {a : Activation Value} {next : Value → Dialogue Value (Option Value)}
    (hs : S.strands = before ++ s :: after) (hq : s.rest = .ask (.invoke a) next) :
    System.Reachable host refers { S with
      strands := before ++ s.answered ⟨⟨.invoke a, v⟩, S.heap⟩ (next v) :: after } :=
  hS.step (.advance hs hq (.invoke a v))

end Reaching

end Covenant.Machine
