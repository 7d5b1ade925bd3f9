import Covenant.Names
import Covenant.Proofs.Weaving.Outcome
import Covenant.Source.Reader
import Mathlib.Data.List.Nodup

/-! # Layers — stacks of decorators in a text

    The decorators of a definition are layers around its function.  A layer
    that states conditions has them as literals, by position or by name.

    * `recorded` joins the clauses of layers in the order of the text.
    * A reader of the text takes some of the layers into account, and none of
      them may have absent conditions (`read`): those of a member that state
      pre- or postconditions (`memberTerms_eq`), and for a function the first
      contract in front of these (`functionTerms_eq`). -/

namespace Covenant.Declaration

/-- Preconditions and postconditions. -/
abbrev Terms := List Clause × List Clause

/-- The clauses of a callable. -/
def Callable.terms {α : Type} (c : Callable α) : Terms := (c.preconditions, c.postconditions)

end Covenant.Declaration

namespace Covenant.Source

open Declaration Covenant.Tree Value

/-! ## Conditions -/

/-- Conditions as a decorator gets them: nothing, or texts with their messages. -/
inductive Conditions where
  | absent
  | texts (items : Names String)
  deriving DecidableEq

namespace Conditions

/-- The clauses of conditions; a condition that is written again changes its message. -/
def clauses : Conditions → List Clause
  | .absent => []
  | .texts items => (Names.setAll [] items).map fun p => ⟨p.1, p.2⟩

/-- A text written as a constant. -/
def IsText (t : String) (e : Expr) : Prop := ∃ span marked, e = .constant span (.str t marked)

/-- Conditions written as a literal. -/
inductive Written : Conditions → Expr → Prop
  | absent (span : Span) : Written .absent (.constant span .none)
  | texts {items : Names String} {keys values : List Expr} (span : Span)
      (hkeys : List.Forall₂ IsText (items.map (·.1)) keys)
      (hvalues : List.Forall₂ IsText (items.map (·.2)) values) :
      Written (.texts items)
        (.compound span (.dict (List.replicate items.length true)) (keys ++ values))

/-- Conditions written out. -/
def tree : Conditions → Expr
  | .absent => .constant nowhere .none
  | .texts items => .compound nowhere (.dict (List.replicate items.length true))
      (items.map (fun p => .constant nowhere (.str p.1 false))
        ++ items.map fun p => .constant nowhere (.str p.2 false))

theorem written_tree (c : Conditions) : c.Written c.tree := by
  cases c with
  | absent => exact .absent nowhere
  | texts items =>
      have htexts : ∀ text : String × String → String, List.Forall₂ IsText (items.map text)
          (items.map fun p => .constant nowhere (.str (text p) false)) := by
        intro text
        rw [List.forall₂_map_left_iff, List.forall₂_map_right_iff, List.forall₂_same]
        exact fun p _ => ⟨nowhere, false, rfl⟩
      exact .texts nowhere (htexts _) (htexts _)

end Conditions

/-! ## Layers -/

/-- The decorators that declare contracts of members and functions. -/
inductive Marker where
  | precondition | postcondition | invariant | constructor | functionContract
  deriving DecidableEq

namespace Marker

/-- The name of a decorator. -/
def name : Marker → String
  | precondition => "precondition"
  | postcondition => "postcondition"
  | invariant => "invariant"
  | constructor => "constructor"
  | functionContract => functionMarker

/-- The parameters of a decorator. -/
def parameters : Marker → List String
  | precondition | postcondition => ["asserts"]
  | invariant | constructor => ["func"]
  | functionContract => ["preconditions", "postconditions"]

/-- Whether a decorator only states clauses. -/
def isClause : Marker → Bool
  | precondition | postcondition => true
  | _ => false

/-- Whether a decorator only marks its target, so that it need not be called. -/
def isMark : Marker → Bool
  | invariant | constructor => true
  | _ => false

theorem nodup_parameters (m : Marker) : m.parameters.Nodup := by
  cases m <;> decide

theorem name_injective : Function.Injective name := by
  intro m m' h
  revert h
  cases m <;> cases m' <;> decide

end Marker

/-- A decorator with its arguments, first those by position, then those by name. -/
structure Layer where
  marker : Marker
  isCalled : Bool := true
  positional : List Conditions := []
  named : Names Conditions := []
  bare : isCalled = false → marker.isMark = true ∧ positional = [] ∧ named = []
  fits : ∀ p ∈ named, p.1 ∈ marker.parameters.drop positional.length

/-- The clauses of an argument; there are none if it is not given. -/
def stated (c : Option Conditions) : List Clause := c.elim [] Conditions.clauses

namespace Layer

/-- The argument for a parameter. -/
def argument (l : Layer) (place : Nat) (name : String) : Option Conditions :=
  (l.positional[place]?).or (l.named.lookup name)

/-- The preconditions that a layer adds. -/
def preconditions (l : Layer) : List Clause :=
  match l.marker with
  | .precondition => stated (l.argument 0 "asserts")
  | .functionContract => stated (l.argument 0 "preconditions")
  | _ => []

/-- The postconditions that a layer adds. -/
def postconditions (l : Layer) : List Clause :=
  match l.marker with
  | .postcondition => stated (l.argument 0 "asserts")
  | .functionContract => stated (l.argument 1 "postconditions")
  | _ => []

/-- Whether a layer is the contract of a function. -/
def isContract (l : Layer) : Bool := l.marker == .functionContract

/-- Whether a layer only states clauses. -/
def isClause (l : Layer) : Bool := l.marker.isClause

/-- Whether no parameter of a layer is given absent conditions. -/
def isLegible (l : Layer) : Bool :=
  l.marker.parameters.zipIdx.all fun p => l.argument p.2 p.1 != some .absent

/-- `l.Written callee e`: a decorator is written that is called with the arguments of a layer, or
    is not called at all, by an expression that stands for its marker. -/
inductive Written (callee : Marker → Expr → Prop) (l : Layer) : Expr → Prop
  | bare {e : Expr} (hcalled : l.isCalled = false) (he : callee l.marker e) : Written callee l e
  | called {span : Span} {f : Expr} {args : List Expr} {keywords : List Keyword}
      (hcalled : l.isCalled = true) (hf : callee l.marker f)
      (hargs : List.Forall₂ Conditions.Written l.positional args)
      (hkeywords : List.Forall₂ (fun p k => ∃ span e, k = Keyword.mk span (some p.1) e ∧
        Conditions.Written p.2 e) l.named keywords) :
      Written callee l (.call span f args keywords)

/-- A layer written out, with the name of its marker. -/
def tree (l : Layer) : Expr :=
  let f : Expr := .name nowhere l.marker.name .load
  if l.isCalled then
    .call nowhere f (l.positional.map Conditions.tree)
      (l.named.map fun p => .mk nowhere (some p.1) p.2.tree)
  else f

theorem written_tree {callee : Marker → Expr → Prop} (l : Layer)
    (hcallee : callee l.marker (.name nowhere l.marker.name .load)) : l.Written callee l.tree := by
  unfold tree
  cases hcalled : l.isCalled with
  | false => exact .bare hcalled hcallee
  | true =>
      refine .called hcalled hcallee ?_ ?_
      · rw [List.forall₂_map_right_iff, List.forall₂_same]
        exact fun c _ => c.written_tree
      · rw [List.forall₂_map_right_iff, List.forall₂_same]
        exact fun p _ => ⟨nowhere, p.2.tree, rfl, p.2.written_tree⟩

end Layer

/-- The clauses of layers in the order of the text. -/
def recorded (ls : List Layer) : Terms :=
  (ls.flatMap Layer.preconditions, ls.flatMap Layer.postconditions)

/-- The clauses that the outermost contract of a function finds: its own, and those of the layers
    under it. -/
def publishedBy (ls : List Layer) : Terms := recorded (ls.dropWhile fun l => !l.isContract)

theorem recorded_cons (l : Layer) (ls : List Layer) : recorded (l :: ls)
    = (l.preconditions ++ (recorded ls).1, l.postconditions ++ (recorded ls).2) := rfl

theorem recorded_append (ls ls' : List Layer) : recorded (ls ++ ls')
    = ((recorded ls).1 ++ (recorded ls').1, (recorded ls).2 ++ (recorded ls').2) := by
  unfold recorded
  rw [List.flatMap_append, List.flatMap_append]

theorem published_cons_of_contract {l : Layer} (hl : l.isContract = true) (ls : List Layer) :
    publishedBy (l :: ls) = recorded (l :: ls) := by
  unfold publishedBy
  rw [List.dropWhile_cons_of_neg (by rw [hl]; exact nofun)]

theorem published_cons_of_other {l : Layer} (hl : l.isContract = false) (ls : List Layer) :
    publishedBy (l :: ls) = publishedBy ls := by
  unfold publishedBy
  rw [List.dropWhile_cons_of_pos (by rw [hl]; rfl)]

/-- Where no layer states anything, nothing is found. -/
theorem published_eq_nil {ls : List Layer} (h : recorded ls = ([], [])) :
    publishedBy ls = ([], []) := by
  rw [← List.takeWhile_append_dropWhile (p := fun l => !l.isContract) (l := ls),
    recorded_append] at h
  obtain ⟨hpre, hpost⟩ := Prod.mk.inj h
  exact Prod.ext (List.append_eq_nil_iff.mp hpre).2 (List.append_eq_nil_iff.mp hpost).2

/-- What a reader of a text gets from layers. -/
def read (ls : List Layer) : Option Terms :=
  if ls.all Layer.isLegible then some (recorded ls) else none

/-! ## Agreement -/

theorem Layer.states_nothing {l : Layer} (hl : l.isClause = false) (hl' : l.isContract = false) :
    l.preconditions = [] ∧ l.postconditions = [] := by
  unfold Layer.isClause at hl
  unfold Layer.isContract at hl'
  rw [Layer.preconditions, Layer.postconditions]
  cases hm : l.marker with
  | invariant | constructor => exact ⟨rfl, rfl⟩
  | precondition | postcondition =>
      rw [hm] at hl
      exact nomatch hl
  | functionContract =>
      rw [hm] at hl'
      exact nomatch hl'

theorem Layer.isContract_of_isClause {l : Layer} (hl : l.isClause = true) :
    l.isContract = false := by
  unfold Layer.isClause at hl
  unfold Layer.isContract
  cases hm : l.marker with
  | precondition | postcondition => rfl
  | invariant | constructor | functionContract =>
      rw [hm] at hl
      exact nomatch hl

/-- Every clause comes from a layer that only states clauses, or from a contract. -/
theorem length_recorded (ls : List Layer) :
    (recorded ls).1.length = (recorded (ls.filter Layer.isClause)).1.length
        + (recorded (ls.filter Layer.isContract)).1.length ∧
      (recorded ls).2.length = (recorded (ls.filter Layer.isClause)).2.length
        + (recorded (ls.filter Layer.isContract)).2.length := by
  induction ls with
  | nil => exact ⟨rfl, rfl⟩
  | cons l ls ih =>
      obtain ⟨hpre, hpost⟩ := ih
      rw [recorded_cons]
      cases hclause : l.isClause with
      | true =>
          rw [List.filter_cons_of_pos hclause, List.filter_cons_of_neg
            (by rw [Layer.isContract_of_isClause hclause]; exact nofun), recorded_cons]
          simp only [List.length_append]
          omega
      | false =>
          rw [List.filter_cons_of_neg (by rw [hclause]; exact nofun)]
          cases hcontract : l.isContract with
          | true =>
              rw [List.filter_cons_of_pos hcontract, recorded_cons]
              simp only [List.length_append]
              omega
          | false =>
              obtain ⟨hnone, hnone'⟩ := Layer.states_nothing hclause hcontract
              rw [List.filter_cons_of_neg (by rw [hcontract]; exact nofun), hnone, hnone']
              exact ⟨hpre, hpost⟩

/-- Leaving contracts out changes nothing exactly if they state nothing. -/
theorem recorded_filter_eq_iff {ls : List Layer} :
    recorded (ls.filter Layer.isClause) = recorded ls
      ↔ recorded (ls.filter Layer.isContract) = ([], []) := by
  constructor
  · intro h
    obtain ⟨hpre, hpost⟩ := length_recorded ls
    rw [h] at hpre hpost
    exact Prod.ext (List.eq_nil_of_length_eq_zero (by omega))
      (List.eq_nil_of_length_eq_zero (by omega))
  · intro h
    induction ls with
    | nil => rfl
    | cons l ls ih =>
        cases hclause : l.isClause with
        | true =>
            rw [List.filter_cons_of_neg
              (by rw [Layer.isContract_of_isClause hclause]; exact nofun)] at h
            rw [List.filter_cons_of_pos hclause, recorded_cons, recorded_cons, ih h]
        | false =>
            rw [List.filter_cons_of_neg (by rw [hclause]; exact nofun), recorded_cons]
            cases hcontract : l.isContract with
            | true =>
                rw [List.filter_cons_of_pos hcontract, recorded_cons] at h
                obtain ⟨hpre, hpost⟩ := Prod.mk.inj h
                rw [List.append_eq_nil_iff] at hpre hpost
                rw [ih (Prod.ext hpre.2 hpost.2), hpre.1, hpost.1]
                rfl
            | false =>
                obtain ⟨hnone, hnone'⟩ := Layer.states_nothing hclause hcontract
                rw [List.filter_cons_of_neg (by rw [hcontract]; exact nofun)] at h
                rw [ih h, hnone, hnone']
                rfl

theorem filter_isContract_eq_nil {ls : List Layer} (h : ∀ l ∈ ls, l.isContract = false) :
    ls.filter Layer.isContract = [] :=
  List.filter_eq_nil_iff.mpr fun l hl => by rw [h l hl]; exact nofun

theorem read_eq_some_iff {ls : List Layer} {t : Terms} :
    read ls = some t ↔ ls.all Layer.isLegible = true ∧ recorded ls = t := by
  unfold read
  by_cases h : ls.all Layer.isLegible = true
  · rw [if_pos h, Option.some_inj]
    exact ⟨fun ht => ⟨h, ht⟩, And.right⟩
  · rw [if_neg h]
    exact iff_of_false nofun fun ht => h ht.1

section OneContract

variable {above below : List Layer} {l : Layer} (hl : l.isContract = true)
  (hother : ∀ k ∈ above ++ below, k.isContract = false)
include hl hother

theorem publishedBy_of_one : publishedBy (above ++ l :: below) = recorded (l :: below) := by
  have habove : (above ++ l :: below).dropWhile (fun l => !l.isContract) = l :: below := by
    rw [List.dropWhile_append_of_pos fun k hk => ?_, List.dropWhile_cons_of_neg (by rw [hl]; exact nofun)]
    rw [hother k (List.mem_append_left _ hk)]
    rfl
  rw [publishedBy, habove]

theorem find?_of_one : (above ++ l :: below).find? Layer.isContract = some l := by
  rw [List.find?_append, List.find?_eq_none.mpr fun k hk => ?_, Option.none_or,
    List.find?_cons_of_pos hl]
  rw [hother k (List.mem_append_left _ hk)]
  exact nofun

/-- A contract finds all clauses exactly if none is stated above it. -/
theorem recorded_of_one : recorded (l :: (above ++ l :: below).filter Layer.isClause)
    = publishedBy (above ++ l :: below) ↔ recorded above = ([], []) := by
  have hclause : l.isClause = false := by
    by_contra h
    exact nomatch (Layer.isContract_of_isClause (Bool.not_eq_false _ ▸ h)).symm.trans hl
  have hall : recorded ((above ++ l :: below).filter Layer.isClause) = recorded (above ++ below) := by
    rw [List.filter_append, List.filter_cons_of_neg (by rw [hclause]; exact nofun),
      ← List.filter_append]
    exact recorded_filter_eq_iff.2 (by rw [filter_isContract_eq_nil hother]; rfl)
  rw [publishedBy_of_one hl hother, recorded_cons, recorded_cons, hall, recorded_append,
    Prod.mk.injEq, List.append_cancel_left_eq, List.append_cancel_left_eq,
    List.append_left_eq_self, List.append_left_eq_self]
  exact ⟨fun h => Prod.ext h.1 h.2, fun h => Prod.mk.inj h⟩

end OneContract

/-! ## Literals -/

-- the equations for each kind of literal are made here, once for all the proofs
attribute [local simp] literal?

section Literals

variable {c : Conditions} {e : Expr} {items seen : Names String}

theorem literals?_texts {ts : List String} {es : List Expr}
    (h : List.Forall₂ Conditions.IsText ts es) : literals? es = some (ts.map Datum.str) := by
  induction h with
  | nil => rfl
  | @cons t e ts es ht _ ih =>
      obtain ⟨span, marked, rfl⟩ := ht
      rw [literals?, literal?, ih]
      rfl

/-- Texts under texts, as data. -/
def textItems (ps : Names String) : List (Datum × Datum) :=
  ps.map fun p => (Datum.str p.1, Datum.str p.2)

theorem setItem_cons_of_not_same {p : Datum × Datum} {ps : List (Datum × Datum)} {key v : Datum}
    (h : p.1.same key = false) : Datum.setItem (p :: ps) key v = p :: Datum.setItem ps key v := by
  unfold Datum.setItem
  rw [List.any_cons, h, Bool.false_or]
  by_cases hany : ps.any (fun q => q.1.same key) = true
  · rw [if_pos hany, if_pos hany, List.map_cons, h]
    rfl
  · rw [if_neg hany, if_neg hany]
    rfl

theorem same_texts (t t' : String) : (Datum.str t).same (.str t') = (t == t') := by
  rw [Datum.same]

theorem setItem_texts (hseen : (seen.map (·.1)).Nodup) (t m : String) :
    Datum.setItem (textItems seen) (.str t) (.str m) = textItems (Names.set seen t m) := by
  induction seen with
  | nil => rfl
  | cons p ps ih =>
      obtain ⟨k, m'⟩ := p
      obtain ⟨hk, hps⟩ := List.nodup_cons.mp hseen
      show Datum.setItem ((.str k, .str m') :: textItems ps) (.str t) (.str m) = _
      rw [Names.set]
      by_cases hkt : k = t
      · -- no other text is the same, so that nothing else is changed
        subst hkt
        have hsame : (Datum.str k).same (.str k) = true := by rw [same_texts, beq_self_eq_true]
        have hrest : ∀ q ∈ textItems ps,
            (if q.1.same (.str k) then (q.1, Datum.str m) else q) = q := by
          intro q hq
          obtain ⟨r, hr, rfl⟩ := List.mem_map.mp hq
          have hne : r.1 ≠ k := fun heq => hk (List.mem_map.mpr ⟨r, hr, heq⟩)
          rw [same_texts, beq_false_of_ne hne]
          rfl
        rw [if_pos rfl, Datum.setItem, List.any_cons, hsame, Bool.true_or, if_pos rfl, List.map_cons,
          hsame, if_pos rfl, List.map_congr_left hrest, List.map_id']
        rfl
      · have hsame : (Datum.str k).same (.str t) = false := by rw [same_texts, beq_false_of_ne hkt]
        rw [if_neg hkt, setItem_cons_of_not_same hsame, ih hps]
        rfl

theorem mappingOf?_texts (hseen : (seen.map (·.1)).Nodup) :
    mappingOf? ((items.map (·.1)).map Datum.str) ((items.map (·.2)).map Datum.str)
        (textItems seen) = some (.dict (textItems (Names.setAll seen items))) := by
  induction items generalizing seen with
  | nil => rfl
  | cons p items ih =>
      have hnodup : ((Names.set seen p.1 p.2).map (·.1)).Nodup := by
        rw [Names.keys_set]
        by_cases hmem : p.1 ∈ seen.map (·.1)
        · rwa [if_pos hmem]
        · rw [if_neg hmem]
          exact hseen.append (List.nodup_singleton _) (List.disjoint_singleton.mpr hmem)
      show mappingOf? ((items.map (·.1)).map Datum.str) ((items.map (·.2)).map Datum.str)
        (Datum.setItem (textItems seen) (.str p.1) (.str p.2)) = _
      rw [setItem_texts hseen, ih hnodup]
      rfl

theorem literalClauses_texts (h : Conditions.Written (.texts items) e) :
    literalClauses e = .ok (Conditions.texts items).clauses := by
  cases h with
  | @texts _ keys values span hkeys hvalues =>
      have hliterals : literals? (keys ++ values)
          = some ((items.map (·.1)).map Datum.str ++ (items.map (·.2)).map Datum.str) := by
        rw [literals?_texts (List.rel_append hkeys hvalues), List.map_append]
      have hlength : ((items.map (·.1)).map Datum.str).length
          = (List.replicate items.length true).length := by simp
      have hliteral : literal? (.compound span (.dict (List.replicate items.length true))
          (keys ++ values)) = some (.dict (textItems (Names.setAll [] items))) := by
        rw [literal?, if_pos (by simp), hliterals]
        show mappingOf? (List.take _ _) (List.drop _ _) [] = _
        rw [← hlength, List.take_left, List.drop_left]
        exact mappingOf?_texts (show (([] : Names String).map (·.1)).Nodup from List.nodup_nil)
      unfold literalClauses
      rw [hliteral]
      show Except.ok ((textItems (Names.setAll [] items)).map _) = _
      rw [textItems, List.map_map]
      rfl

theorem literalClauses_absent (h : Conditions.Written .absent e) :
    ∃ fault, literalClauses e = .error fault := by
  cases h
  exact ⟨_, rfl⟩

end Literals

/-! ## Decorators as they are read -/

/-- An expression that is read as a marker. -/
def Calls (m : Marker) (e : Expr) : Prop := markerName.target e = some m.name

section Reading

variable {callee : Marker → Expr → Prop} {l : Layer} {ls : List Layer} {e : Expr}
  {es : List Expr}

theorem find?_rel {α β : Type} {r : α → β → Prop} {p : α → Bool} {q : β → Bool} {xs : List α}
    {ys : List β} (h : List.Forall₂ r xs ys) (hpq : ∀ x y, r x y → p x = q y) :
    Option.Rel r (xs.find? p) (ys.find? q) := by
  induction h with
  | nil => exact .none
  | @cons x y xs ys hxy _ ih =>
      rw [List.find?_cons, List.find?_cons, hpq x y hxy]
      cases q y with
      | true => exact .some hxy
      | false => exact ih

theorem getElem?_rel {α β : Type} {r : α → β → Prop} {xs : List α} {ys : List β}
    (h : List.Forall₂ r xs ys) (i : Nat) : Option.Rel r xs[i]? ys[i]? := by
  induction h generalizing i with
  | nil => exact .none
  | cons hxy _ ih =>
      cases i with
      | zero => exact .some hxy
      | succ i => exact ih i

theorem any_rel {α β : Type} {r : α → β → Prop} {p : α → Bool} {q : β → Bool} {xs : List α}
    {ys : List β} (h : List.Forall₂ r xs ys) (hpq : ∀ x y, r x y → p x = q y) :
    xs.any p = ys.any q := by
  induction h with
  | nil => rfl
  | @cons x y xs ys hxy _ ih => rw [List.any_cons, List.any_cons, hpq x y hxy, ih]

/-- The argument that is read for a parameter is the one that is given. -/
theorem argument?_written {place : Nat} {name : String} {args : List Expr}
    {keywords : List Keyword} (hname : l.marker.parameters[place]? = some name)
    (hargs : List.Forall₂ Conditions.Written l.positional args)
    (hkeywords : List.Forall₂ (fun p k => ∃ span e, k = Keyword.mk span (some p.1) e ∧
      Conditions.Written p.2 e) l.named keywords) :
    Option.Rel Conditions.Written (l.argument place name)
      (argument? place name args keywords) := by
  have hnamed : Option.Rel (fun c k => Conditions.Written c (Keyword.value k))
      (l.named.lookup name) (keywords.find? (·.name == some name)) := by
    generalize l.named = named at hkeywords ⊢
    induction hkeywords with
    | nil => exact .none
    | @cons p k ps ks hk _ ih =>
        obtain ⟨t, c⟩ := p
        obtain ⟨span, e, rfl, he⟩ := hk
        rw [List.lookup_cons, List.find?_cons]
        by_cases ht : name = t
        · subst ht
          rw [beq_self_eq_true, show ((Keyword.mk span (some name) e).name == some name) = true from
            beq_self_eq_true (some name)]
          exact .some he
        · rw [beq_false_of_ne ht, show ((Keyword.mk span (some t) e).name == some name) = false from
            beq_false_of_ne fun heq => ht (Option.some.inj heq).symm]
          exact ih
  unfold Layer.argument argument?
  cases hlookup : l.named.lookup name with
  | none =>
      rw [hlookup] at hnamed
      cases hfind : keywords.find? (·.name == some name) with
      | none =>
          rw [Option.or_none]
          exact getElem?_rel hargs place
      | some k =>
          rw [hfind] at hnamed
          exact nomatch hnamed
  | some c =>
      -- what is given by name is not given by position
      have hfree : l.positional[place]? = none := by
        by_contra hgiven
        have hplace : place < l.positional.length := by
          by_contra hge
          exact hgiven (List.getElem?_eq_none (Nat.le_of_not_lt hge))
        obtain ⟨ps, qs, hsplit, -⟩ := List.lookup_eq_some_iff.mp hlookup
        have hbehind := l.fits (name, c) (hsplit ▸ List.mem_append_right ps List.mem_cons_self)
        have hfront : name ∈ l.marker.parameters.take l.positional.length :=
          List.mem_of_getElem? ((List.getElem?_take_of_lt hplace).trans hname)
        exact List.disjoint_take_drop l.marker.nodup_parameters (Nat.le_refl _) hfront hbehind
      rw [hlookup] at hnamed
      rw [hfree, Option.none_or]
      cases hfind : keywords.find? (·.name == some name) with
      | none =>
          rw [hfind] at hnamed
          exact nomatch hnamed
      | some k =>
          rw [hfind] at hnamed
          cases hnamed with
          | some hk => exact .some hk

variable (hcallee : ∀ m f, callee m f → Calls m f)
include hcallee

theorem markerName_written (he : l.Written callee e) : markerName e = some l.marker.name := by
  cases he with
  | called _ hf => exact hcallee _ _ hf
  | bare _ he =>
      have hname := hcallee _ _ he
      cases e with
      | name | field => exact hname
      | constant | call | lambda | comprehension | compound => exact nomatch hname

/-- What is read for a parameter, unless it is given absent conditions. -/
theorem markerClauses_written (he : l.Written callee e) (place : Nat) (name : String)
    (hname : l.marker.parameters[place]? = some name) :
    (l.argument place name ≠ some .absent →
      markerClauses place name e = .ok (stated (l.argument place name))) ∧
    (l.argument place name = some .absent → ∃ fault, markerClauses place name e = .error fault) := by
  cases he with
  | bare hcalled he =>
      obtain ⟨-, hpositional, hnamed⟩ := l.bare hcalled
      have hargument : l.argument place name = none := by
        rw [Layer.argument, hpositional, hnamed]
        rfl
      rw [hargument]
      have hcalls := hcallee _ _ he
      refine ⟨fun _ => ?_, nofun⟩
      cases e with
      | name | field => rfl
      | constant | call | lambda | comprehension | compound => exact nomatch hcalls
  | @called span f args keywords _ hf hargs hkeywords =>
      have hrel := argument?_written hname hargs hkeywords
      rw [markerClauses]
      generalize l.argument place name = c at hrel ⊢
      generalize argument? place name args keywords = a at hrel ⊢
      cases hrel with
      | none => exact ⟨fun _ => rfl, nofun⟩
      | @some c e he =>
          cases c with
          | absent => exact ⟨fun h => absurd rfl h, fun _ => literalClauses_absent he⟩
          | texts items => exact ⟨fun _ => literalClauses_texts he, nofun⟩

/-! ## Definitions as they are read -/

omit hcallee in
theorem isLegible_of_isClause (hl : l.isClause = true) :
    l.isLegible = true ↔ l.argument 0 "asserts" ≠ some .absent := by
  unfold Layer.isClause at hl
  unfold Layer.isLegible
  cases hm : l.marker with
  | precondition | postcondition =>
      show (l.argument 0 "asserts" != some .absent && true) = true ↔ _
      rw [Bool.and_true, bne_iff_ne]
  | invariant | constructor | functionContract =>
      rw [hm] at hl
      exact nomatch hl

omit hcallee in
theorem isLegible_of_isContract (hl : l.isContract = true) :
    l.isLegible = true ↔ l.argument 0 "preconditions" ≠ some .absent ∧
      l.argument 1 "postconditions" ≠ some .absent := by
  have hm : l.marker = .functionContract := eq_of_beq hl
  unfold Layer.isLegible
  rw [hm]
  show (l.argument 0 "preconditions" != some .absent &&
    (l.argument 1 "postconditions" != some .absent && true)) = true ↔ _
  rw [Bool.and_true, Bool.and_eq_true, bne_iff_ne, bne_iff_ne]

omit hcallee in
theorem read_cons_of_legible (hl : l.isLegible = true) :
    read (l :: ls) = (read ls).map fun t => (l.preconditions ++ t.1, l.postconditions ++ t.2) := by
  unfold read
  rw [List.all_cons, hl, Bool.true_and]
  split
  · rfl
  · rfl

omit hcallee in
theorem read_cons_of_illegible (hl : ¬ l.isLegible = true) : read (l :: ls) = none := by
  unfold read
  rw [List.all_cons, Bool.eq_false_iff.mpr hl]
  rfl

/-- A layer that only states clauses adds them, or ends the reading. -/
theorem decoratedClauses_cons (he : l.Written callee e) (hl : l.isClause = true)
    (es : List Expr) (acc : Terms) :
    (l.isLegible = true → decoratedClauses (e :: es) acc
      = decoratedClauses es (acc.1 ++ l.preconditions, acc.2 ++ l.postconditions)) ∧
    (¬ l.isLegible = true → ∃ fault, decoratedClauses (e :: es) acc = .error fault) := by
  obtain ⟨pre, post⟩ := acc
  have hname := markerName_written hcallee he
  have hlegible := isLegible_of_isClause hl
  have hread (hparameters : l.marker.parameters[0]? = some "asserts") :=
    markerClauses_written hcallee he 0 "asserts" hparameters
  unfold Layer.isClause at hl
  rw [decoratedClauses, hname, Layer.preconditions, Layer.postconditions]
  cases hm : l.marker with
  | precondition =>
      obtain ⟨hstated, hfault⟩ := hread (by rw [hm]; rfl)
      dsimp only [Marker.name]
      constructor
      · intro h
        rw [hstated (hlegible.mp h), List.append_nil]
        rfl
      · intro h
        obtain ⟨fault, heq⟩ := hfault (not_not.mp (mt hlegible.mpr h))
        exact ⟨fault, by rw [heq]; rfl⟩
  | postcondition =>
      obtain ⟨hstated, hfault⟩ := hread (by rw [hm]; rfl)
      dsimp only [Marker.name]
      constructor
      · intro h
        rw [hstated (hlegible.mp h), List.append_nil]
        rfl
      · intro h
        obtain ⟨fault, heq⟩ := hfault (not_not.mp (mt hlegible.mpr h))
        exact ⟨fault, by rw [heq]; rfl⟩
  | invariant | constructor | functionContract =>
      rw [hm] at hl
      exact nomatch hl

/-- The layers that only state clauses are read one after the other. -/
theorem decoratedClauses_written (hw : List.Forall₂ (Layer.Written callee) ls es) (acc : Terms) :
    (decoratedClauses es acc).toOption
      = (read (ls.filter Layer.isClause)).map fun t => (acc.1 ++ t.1, acc.2 ++ t.2) := by
  induction hw generalizing acc with
  | nil =>
      obtain ⟨pre, post⟩ := acc
      show some (pre, post) = some (pre ++ [], post ++ [])
      rw [List.append_nil, List.append_nil]
  | @cons l e ls es he _ ih =>
      cases hclause : l.isClause with
      | false =>
          rw [List.filter_cons_of_neg (by rw [hclause]; exact nofun), ← ih]
          obtain ⟨pre, post⟩ := acc
          unfold Layer.isClause at hclause
          rw [decoratedClauses, markerName_written hcallee he]
          cases hm : l.marker with
          | precondition | postcondition =>
              rw [hm] at hclause
              exact nomatch hclause
          | invariant | constructor | functionContract => rfl
      | true =>
          rw [List.filter_cons_of_pos hclause]
          obtain ⟨hadded, hfault⟩ := decoratedClauses_cons hcallee he hclause es acc
          by_cases hl : l.isLegible = true
          · rw [hadded hl, ih, read_cons_of_legible hl, Option.map_map]
            refine congrArg (Option.map · _) (funext fun t => ?_)
            simp only [Function.comp_apply, List.append_assoc]
          · obtain ⟨fault, heq⟩ := hfault hl
            rw [heq, read_cons_of_illegible hl]
            rfl

end Reading

/-! ## Functions and members -/

section Definitions

variable {source : List Char} {module : Option String} {callee : Marker → Expr → Prop}
  {ls : List Layer} {h : FunctionHead}

/-- The clauses that are read for a function, if it is declared. -/
def functionTerms (source : List Char) (module : Option String) (h : FunctionHead) :
    Option Terms :=
  (functionOf source module h).toOption.bind fun c => c.map Callable.terms

/-- The clauses that are read for a member, if it is declared. -/
def memberTerms (source : List Char) (module : Option String) (owner : String) (s : Stmt) :
    Option Terms :=
  match memberOf source module owner s with
  | .declared c => some c.terms
  | _ => none

/-- Whether a member with some layers takes part in the contract of its class. -/
def takesPart (name : String) (ls : List Layer) : Bool :=
  name == initializerName || ls.any fun l => !l.isContract

variable (hcallee : ∀ m f, callee m f → Calls m f)
  (hw : List.Forall₂ (Layer.Written callee) ls h.decorators)
include hcallee hw

theorem callableOf_terms (source : List Char) (module : Option String) (role : Role) (applied : Bool) (acc : Terms) :
    (callableOf source module role applied h acc.1 acc.2).toOption.map Callable.terms
      = (read (ls.filter Layer.isClause)).map fun t => (acc.1 ++ t.1, acc.2 ++ t.2) := by
  rw [← decoratedClauses_written hcallee hw]
  unfold callableOf
  cases decoratedClauses h.decorators (acc.1, acc.2) with
  | error e => rfl
  | ok t => rfl

/-- **THE CLAUSES READ FOR A FUNCTION** are those of its first contract, then those of all layers
    that only state clauses. -/
theorem functionTerms_eq : functionTerms source module h
    = (ls.find? Layer.isContract).bind fun l => read (l :: ls.filter Layer.isClause) := by
  have hfirst : Option.Rel (Layer.Written callee) (ls.find? Layer.isContract)
      (findMarker functionMarker h.decorators) := by
    refine find?_rel hw fun l e he => ?_
    rw [markerName_written hcallee he, Layer.isContract]
    by_cases hm : l.marker = .functionContract
    · rw [hm]
      rfl
    · have hname : (some l.marker.name == some functionMarker) = false :=
        beq_false_of_ne fun heq => hm (Marker.name_injective (Option.some.inj heq))
      rw [hname]
      exact beq_false_of_ne hm
  unfold functionTerms functionOf
  generalize findMarker functionMarker h.decorators = o at hfirst ⊢
  cases hl : ls.find? Layer.isContract with
  | none =>
      rw [hl] at hfirst
      cases hfirst
      rfl
  | some l =>
      rw [hl] at hfirst
      obtain ⟨e, rfl, he⟩ : ∃ e, o = some e ∧ l.Written callee e := by
        cases hfirst with
        | some he => exact ⟨_, rfl, he⟩
      have hcontract : l.isContract = true := List.find?_some hl
      have hm : l.marker = .functionContract := eq_of_beq hcontract
      have hpre := markerClauses_written hcallee he 0 "preconditions" (by rw [hm]; rfl)
      have hpost := markerClauses_written hcallee he 1 "postconditions" (by rw [hm]; rfl)
      have hlegible := isLegible_of_isContract hcontract
      dsimp only [Option.bind_some]
      by_cases habsent : l.argument 0 "preconditions" = some .absent
      · obtain ⟨fault, heq⟩ := hpre.2 habsent
        rw [heq, read_cons_of_illegible fun h => (hlegible.mp h).1 habsent]
        rfl
      · rw [hpre.1 habsent]
        by_cases habsent' : l.argument 1 "postconditions" = some .absent
        · obtain ⟨fault, heq⟩ := hpost.2 habsent'
          rw [heq, read_cons_of_illegible fun h => (hlegible.mp h).2 habsent']
          rfl
        · have hterms := callableOf_terms hcallee hw source module .function
            (findMarker "invariant" h.decorators).isSome (l.preconditions, l.postconditions)
          have hstated : (l.preconditions, l.postconditions)
              = (stated (l.argument 0 "preconditions"), stated (l.argument 1 "postconditions")) := by
            rw [Layer.preconditions, Layer.postconditions, hm]
          rw [hpost.1 habsent', read_cons_of_legible (hlegible.mpr ⟨habsent, habsent'⟩), ← hterms,
            hstated]
          show (callableOf source module .function _ h (stated (l.argument 0 "preconditions"))
            (stated (l.argument 1 "postconditions")) >>= fun c => pure (some c)).toOption.bind _ = _
          generalize callableOf source module .function _ h _ _ = r
          cases r with
          | error e => rfl
          | ok c => rfl

/-- **THE CLAUSES READ FOR A MEMBER** are those of the layers that only state clauses. -/
theorem memberTerms_eq (owner : String) (body : List Stmt) :
    memberTerms source module owner (.function h body)
      = if takesPart h.name ls then read (ls.filter Layer.isClause) else none := by
  have hpart : isContractMember h = takesPart h.name ls := by
    unfold isContractMember takesPart
    refine congrArg (h.name == initializerName || ·) (any_rel hw fun l e he => ?_).symm
    rw [markerName_written hcallee he, Layer.isContract]
    cases l.marker <;> decide
  have hfree : bindingOf h = none := by
    unfold bindingOf
    refine List.find?_eq_none.mpr fun n hn => ?_
    obtain ⟨e, he, hne⟩ := List.mem_filterMap.mp hn
    obtain ⟨l, -, hl⟩ := exists_of_forall₂_right hw e he
    rw [markerName_written hcallee hl] at hne
    rw [← Option.some.inj hne]
    cases l.marker <;> decide
  unfold memberTerms memberOf
  dsimp only
  rw [hpart, hfree]
  cases takesPart h.name ls with
  | false => rfl
  | true =>
      dsimp only [Bool.not_true, Bool.false_eq_true, if_false, if_true]
      generalize hrole : (if (h.name == initializerName
        || (findMarker "constructor" h.decorators).isSome) then Role.constructor
        else Role.method) = role
      have hterms := callableOf_terms hcallee hw source module role true
        ([], [])
      simp only [List.nil_append, Option.map_id'] at hterms
      rw [← hterms]
      generalize callableOf source module role true h [] [] = r
      cases r with
      | error e => rfl
      | ok c => rfl

end Definitions

end Covenant.Source
