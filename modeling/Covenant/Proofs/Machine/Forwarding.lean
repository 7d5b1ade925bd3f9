import Covenant.Proofs.Machine.Resolution
import Covenant.Proofs.Signature.Binding
import Covenant.Proofs.Signature.CallText

/-! # Forwarding — arguments that arrive as they were given

    A wrapper binds the arguments of a call, fills in the defaults, and calls
    the implementation with arguments made from what the parameters are bound
    to.

    * `Stands` relates what a parameter is bound to and the value of its name in a body.
    * In such a scope the text of the call has these arguments
      (`evaluateItems_forwarded`, `evaluateKeywords_forwarded`).
    * `forwarding_transparent`: bound again, they give every parameter the same value. -/

namespace Covenant.Machine

open Covenant.Grammar Covenant.Signature Covenant.Tree Declaration

variable {h h' : Heap} {ps : List (Parameter Value)} {bound : Binding Value}

theorem bind_of_done {α β : Type} {x : Comp α} {f : α → Comp β} {a : α} (hx : x h = .done a h') :
    (x >>= f) h = f a h' := by
  show (x h).bind f = _
  rw [hx]
  rfl

theorem object?_done (v : Value) : Comp.object? v h = .done (h.object? v) h := rfl

/-! ## Bound names -/

/-- What a parameter is bound to, as the value of its name. -/
def Stands (h : Heap) (x : Value) : Bound Value → Prop
  | .one v => x = v
  | .many vs => h.object? x = some (.tuple vs)
  | .named ps => h.object? x = some (.dict (itemsOfNames ps))

theorem Stands.grows {x : Value} {v : Bound Value} (hx : Stands h x v) (hg : h.Grows h') :
    Stands h' x v := by
  cases v with
  | one v => exact hx
  | many vs => exact hg.object? hx
  | named ps => exact hg.object? hx

theorem boundValue_stands (v : Bound Value) (h : Heap) :
    ∃ x h', boundValue v h = .done x h' ∧ h.Grows h' ∧ Stands h' x v := by
  cases v with
  | one v => exact ⟨v, h, rfl, .refl h, rfl⟩
  | many vs => exact ⟨_, _, rfl, h.grows_add _, h.get?_add_self _⟩
  | named ps => exact ⟨_, _, rfl, h.grows_add _, h.get?_add_self _⟩

/-- Every name of a binding gets a value that stands for what it is bound to. -/
theorem boundNamesOf_stands (bound : Binding Value) (h : Heap) :
    ∃ names h', boundNamesOf bound h = .done names h' ∧ h.Grows h' ∧
      List.Forall₂ (fun e x => x.1 = e.1 ∧ Stands h' x.2 e.2) bound names := by
  induction bound generalizing h with
  | nil => exact ⟨[], h, rfl, .refl h, .nil⟩
  | cons e bound ih =>
      obtain ⟨x, h₁, hx, hg, hstands⟩ := boundValue_stands e.2 h
      obtain ⟨names, h₂, hnames, hg', hall⟩ := ih h₁
      refine ⟨(e.1, x) :: names, h₂, ?_, hg.trans hg', .cons ⟨rfl, hstands.grows hg'⟩ hall⟩
      have hfirst : (do pure (e.1, ← boundValue e.2) : Comp (String × Value)) h
          = .done (e.1, x) h₁ := bind_of_done hx
      unfold boundNamesOf at hnames ⊢
      rw [List.mapM_cons, bind_of_done hfirst, bind_of_done hnames]
      rfl

/-! ## Names in a body -/

variable {host : Host} {s : Scope} {a : Address} {names : Names Value} {e : Expr}

theorem nameHere_inside (howner : s.owner = none) {locals : List String} {name : String} :
    (s.inside a locals).nameHere name = name := by
  show privateName s.owner name = name
  rw [howner]
  rfl

/-- In a body, a parameter's name gives its value. -/
theorem evaluate_name (howner : s.owner = none) (hnames : h.get? a = some (.names names))
    {name : String} {x : Value} (hx : names.lookup name = some x)
    (he : e.unplaced = nameAt name) :
    evaluate host (s.inside a (names.map (·.1))) e h = .done x h := by
  obtain ⟨place, rfl⟩ : ∃ place, e = .name place name .load :=
    exists_name_of_sameShape (s := nowhere) he
  have hmem : name ∈ names.map (·.1) := by
    by_contra hmem
    have hne : ∀ p ∈ names, p.1 ≠ name := fun p hp heq =>
      hmem (List.mem_map.mpr ⟨p, hp, heq⟩)
    rw [lookup_eq_none_of_forall_ne hne] at hx
    exact nomatch hx
  have hhere : (s.inside a (names.map (·.1))).nameHere name = name := nameHere_inside howner
  have hframe : Comp.frameOf name (s.inside a (names.map (·.1))).frames
      = some (⟨a, names.map (·.1)⟩, true) := by
    show Comp.frameOf name (⟨a, names.map (·.1)⟩ :: s.frames) = _
    rw [Comp.frameOf, if_pos (List.contains_iff_mem.mpr hmem)]
  rw [evaluate, hhere]
  exact lookup_of_frameOf rfl hframe hnames hx

/-! ## Arguments -/

/-- `Passed h names name a args kwargs`: where names have values, an argument made of a name
    passes these values on. -/
inductive Passed (h : Heap) (names : Names Value) (name : String) :
    Argument → List Value → Names Value → Prop where
  | positional {x : Value} : names.lookup name = some x →
      Passed h names name (.positional (nameAt name)) [x] []
  | star {x : Value} {vs : List Value} : names.lookup name = some x →
      h.object? x = some (.tuple vs) → Passed h names name (.star nowhere (nameAt name)) vs []
  | named {x : Value} : names.lookup name = some x →
      Passed h names name (.named nowhere name (nameAt name)) [] [(name, x)]
  | unpacked {x : Value} {ps : Names Value} : names.lookup name = some x →
      h.object? x = some (.dict (itemsOfNames ps)) →
      Passed h names name (.unpacked nowhere (nameAt name)) [] ps

/-- A parameter passes on what its slot is bound to. -/
theorem passed_of_fits {p : Parameter Value} (hp : Proper p) {v : Bound Value} {x : Value}
    (hfits : (slotOf p).Fits v) (hx : names.lookup p.name = some x) (hstands : Stands h x v) :
    Passed h names p.name (forwardedArgument p) ((slotOf p).arguments v)
      ((slotOf p).keywords v) := by
  have hnamed : (slotOf p).passing = .namedOnly ↔ p.kind.isNamed = true :=
    passing_slotOf_eq_namedOnly hp
  -- a slot that is not only positional is passed as its kind says
  have hpassing (hkind : passingOf p.kind ≠ .positionalOrNamed) :
      (slotOf p).passing = passingOf p.kind :=
    (passing_slotOf hp).resolve_right fun h => hkind h.2
  cases v with
  | one v =>
      obtain rfl : x = v := hstands
      have hvariadic : ¬ (slotOf p).IsVariadic := hfits
      unfold Slot.arguments Slot.keywords forwardedArgument
      cases hk : p.kind with
      | requiredPositional | optionalPositional =>
          have hpositional : (slotOf p).passing ≠ .namedOnly := by
            rw [ne_eq, hnamed, hk]
            decide
          simp only [if_neg hpositional]
          exact .positional hx
      | requiredNamed | optionalNamed =>
          have hpassing : (slotOf p).passing = .namedOnly := by
            rw [hnamed, hk]
            rfl
          simp only [if_pos hpassing]
          exact .named hx
      | variadicPositional =>
          rw [hk] at hpassing
          exact absurd (.inl (hpassing (by decide))) hvariadic
      | variadicNamed =>
          rw [hk] at hpassing
          exact absurd (.inr (hpassing (by decide))) hvariadic
  | many vs =>
      have hfits : (slotOf p).passing = .variadic := hfits
      have hkind : p.kind = .variadicPositional := by
        rcases passing_slotOf hp with h | ⟨h, -⟩
        · rw [hfits] at h
          cases hk : p.kind <;> rw [hk] at h <;> first | rfl | exact nomatch h
        · exact nomatch hfits.symm.trans h
      unfold forwardedArgument
      rw [hkind]
      exact .star hx hstands
  | named vs =>
      have hfits : (slotOf p).passing = .variadicNamed := hfits
      have hkind : p.kind = .variadicNamed := by
        rcases passing_slotOf hp with h | ⟨h, -⟩
        · rw [hfits] at h
          cases hk : p.kind <;> rw [hk] at h <;> first | rfl | exact nomatch h
        · exact nomatch hfits.symm.trans h
      unfold forwardedArgument
      rw [hkind]
      exact .unpacked hx hstands

/-! ## Evaluation -/

theorem itemsOf_tuple {x : Value} {vs : List Value} (hx : h.object? x = some (.tuple vs)) :
    itemsOf host x h = .done vs h := by
  cases x with
  | ref b =>
      have hitems : h.items? (.ref b) = some vs := by
        simp only [Heap.items?, hx]
      unfold itemsOf
      rw [bind_of_done (show Comp.heap h = .done h h from rfl), hitems]
      rfl
  | _ => exact nomatch hx

theorem addArgument_fresh {kwargs : Names Value} {name : String} {v : Value}
    (hfresh : name ∉ kwargs.map Prod.fst) :
    addArgument kwargs name v h = .done (kwargs ++ [(name, v)]) h := by
  have hnone : kwargs.lookup name = none := lookup_eq_none_of_forall_ne fun p hp heq =>
    hfresh (List.mem_map.mpr ⟨p, hp, heq⟩)
  rw [addArgument, hnone]
  rfl

theorem addArguments_fresh {kwargs vs : Names Value}
    (hfresh : ((kwargs ++ vs).map Prod.fst).Nodup) :
    addArguments kwargs (itemsOfNames vs) h = .done (kwargs ++ vs) h := by
  induction vs generalizing kwargs with
  | nil =>
      rw [List.append_nil]
      rfl
  | cons v vs ih =>
      have hadd : addArgument kwargs v.1 v.2 h = .done (kwargs ++ [v]) h := by
        refine addArgument_fresh fun hmem => ?_
        rw [List.map_append] at hfresh
        exact List.disjoint_of_nodup_append hfresh hmem List.mem_cons_self
      rw [List.append_cons] at hfresh ⊢
      show addArguments kwargs ((.atom (.str v.1), v.2) :: itemsOfNames vs) h = _
      rw [addArguments, bind_of_done hadd]
      exact ih hfresh

section Evaluation

variable (howner : s.owner = none) (hnames : h.get? a = some (.names names))
include howner hnames

/-- One more argument gives the values by position that it passes on. -/
theorem evaluateItems_passed {name : String} {f : Argument} {args args' : List Value}
    {kwargs : Names Value} (hf : Passed h names name f args kwargs) {fs : List Argument}
    {es : List Expr} (hes : es.map Expr.unplaced
      = ((f :: fs).filterMap Argument.positional?).map Expr.unplaced)
    (hrest : ∀ es' : List Expr, es'.map Expr.unplaced
      = (fs.filterMap Argument.positional?).map Expr.unplaced →
        evaluateItems host (s.inside a (names.map (·.1))) es' h = .done args' h) :
    evaluateItems host (s.inside a (names.map (·.1))) es h = .done (args ++ args') h := by
  cases hf with
  | positional hx =>
      obtain ⟨e, es', rfl, he, hes'⟩ := List.map_eq_cons_iff.mp hes
      have hvalue : evaluate host (s.inside a (names.map (·.1))) e h = .done _ h :=
        evaluate_name howner hnames hx he
      obtain ⟨place, rfl⟩ : ∃ place, e = .name place name .load :=
        exists_name_of_sameShape (s := nowhere) he
      rw [evaluateItems, bind_of_done hvalue, bind_of_done (hrest es' hes')]
      · rfl
      · intro _ _ _ hstarred
        cases hstarred
  | star hx htuple =>
      obtain ⟨e, es', rfl, he, hes'⟩ := List.map_eq_cons_iff.mp hes
      have hstar : e.unplaced
          = .compound nowhere (.starred .load) ([nameAt name].map Expr.unplaced) := he
      obtain ⟨span, qs, rfl, hqs⟩ := unplaced_eq_compound hstar
      obtain ⟨e, qs, rfl, hname, hqs⟩ := List.map_eq_cons_iff.mp hqs
      obtain rfl := List.map_eq_nil_iff.mp hqs
      have hvalue : evaluate host (s.inside a (names.map (·.1))) e h = .done _ h :=
        evaluate_name howner hnames hx hname
      rw [evaluateItems, bind_of_done hvalue, bind_of_done (itemsOf_tuple htuple),
        bind_of_done (hrest es' hes')]
      rfl
  | named | unpacked => exact hrest es hes

/-- One more argument gives the values by name that it passes on. -/
theorem evaluateKeywords_passed {name : String} {f : Argument} {args : List Value}
    {before kwargs kwargs' : Names Value} (hf : Passed h names name f args kwargs)
    (hkeys : ((before ++ kwargs).map Prod.fst).Nodup) {fs : List Argument} {ks : List Keyword}
    (hks : ks.map Keyword.unplaced
      = ((f :: fs).filterMap Argument.keyword?).map Keyword.unplaced)
    (hrest : ∀ ks' : List Keyword, ks'.map Keyword.unplaced
      = (fs.filterMap Argument.keyword?).map Keyword.unplaced →
        evaluateKeywords host (s.inside a (names.map (·.1))) (before ++ kwargs) ks' h
          = .done kwargs' h) :
    evaluateKeywords host (s.inside a (names.map (·.1))) before ks h = .done kwargs' h := by
  cases hf with
  | positional | star =>
      rw [List.append_nil] at hrest
      exact hrest ks hks
  | @named x hx =>
      obtain ⟨k, ks', rfl, hk, hks'⟩ := List.map_eq_cons_iff.mp hks
      obtain ⟨span, n, e⟩ := k
      obtain ⟨-, rfl, he⟩ := Keyword.mk.inj hk
      have hvalue : evaluate host (s.inside a (names.map (·.1))) e h = .done _ h :=
        evaluate_name howner hnames hx he
      have hfresh : name ∉ before.map Prod.fst := fun hmem => by
        rw [List.map_append] at hkeys
        exact List.disjoint_of_nodup_append hkeys hmem List.mem_cons_self
      have hhere : (s.inside a (names.map (·.1))).nameHere name = name := nameHere_inside howner
      rw [evaluateKeywords, bind_of_done hvalue, bind_of_done (object?_done _)]
      show (addArgument before ((s.inside a (names.map (·.1))).nameHere name) x >>= fun ks =>
        evaluateKeywords host (s.inside a (names.map (·.1))) ks ks') h = _
      rw [hhere, bind_of_done (addArgument_fresh hfresh)]
      exact hrest ks' hks'
  | unpacked hx hdict =>
      obtain ⟨k, ks', rfl, hk, hks'⟩ := List.map_eq_cons_iff.mp hks
      obtain ⟨span, n, e⟩ := k
      obtain ⟨-, rfl, he⟩ := Keyword.mk.inj hk
      have hvalue : evaluate host (s.inside a (names.map (·.1))) e h = .done _ h :=
        evaluate_name howner hnames hx he
      rw [evaluateKeywords, bind_of_done hvalue, bind_of_done (object?_done _), hdict]
      show (addArguments before (itemsOfNames kwargs) >>= fun ks =>
        evaluateKeywords host (s.inside a (names.map (·.1))) ks ks') h = _
      rw [bind_of_done (addArguments_fresh hkeys)]
      exact hrest ks' hks'

/-- **THE ARGUMENTS OF A CALL TEXT** are those that its parameters stand for. -/
theorem evaluate_forwarded (hps : ∀ p ∈ ps, Proper p)
    (hbound : List.Forall₂ (fun p e => (slotOf p).Fits e.2 ∧
      ∃ x, names.lookup p.name = some x ∧ Stands h x e.2) ps bound) :
    (∀ es : List Expr, es.map Expr.unplaced
      = ((ps.map forwardedArgument).filterMap Argument.positional?).map Expr.unplaced →
        evaluateItems host (s.inside a (names.map (·.1))) es h
          = .done (argumentsOf (ps.map slotOf) bound) h) ∧
    ∀ (before : Names Value) (ks : List Keyword),
      ((before ++ keywordsOf (ps.map slotOf) bound).map Prod.fst).Nodup →
      ks.map Keyword.unplaced
        = ((ps.map forwardedArgument).filterMap Argument.keyword?).map Keyword.unplaced →
        evaluateKeywords host (s.inside a (names.map (·.1))) before ks h
          = .done (before ++ keywordsOf (ps.map slotOf) bound) h := by
  induction hbound with
  | nil =>
      refine ⟨fun es hes => ?_, fun before ks _ hks => ?_⟩
      · obtain rfl := List.map_eq_nil_iff.mp hes
        rfl
      · obtain rfl := List.map_eq_nil_iff.mp hks
        show evaluateKeywords host _ before [] h = .done (before ++ []) h
        rw [List.append_nil]
        rfl
  | @cons p e ps bound hp _ ih =>
      rw [List.forall_mem_cons] at hps
      obtain ⟨hfits, x, hx, hstands⟩ := hp
      have hpassed := passed_of_fits hps.1 hfits hx hstands
      obtain ⟨ihItems, ihKeywords⟩ := ih hps.2
      refine ⟨fun es hes => ?_, fun before ks hkeys hks => ?_⟩
      · exact evaluateItems_passed howner hnames hpassed hes ihItems
      · have hkeys : ((before ++ ((slotOf p).keywords e.2
            ++ keywordsOf (ps.map slotOf) bound)).map Prod.fst).Nodup := hkeys
        rw [← List.append_assoc] at hkeys
        have hhere : ((before ++ (slotOf p).keywords e.2).map Prod.fst).Nodup := by
          rw [List.map_append] at hkeys
          exact hkeys.of_append_left
        show evaluateKeywords host _ before ks h
          = .done (before ++ ((slotOf p).keywords e.2 ++ keywordsOf (ps.map slotOf) bound)) h
        rw [← List.append_assoc]
        exact evaluateKeywords_passed howner hnames hpassed hhere hks
          fun ks' hks' => ihKeywords _ ks' hkeys hks'

end Evaluation

/-! ## Transparency -/

/-- The parameters of a function: each can be declared, they stand in order, and their names are
    no keywords. -/
structure ParameterList (ps : List (Parameter Value)) : Prop where
  proper : ∀ p ∈ ps, Proper p
  definable : Definable (ps.map slotOf)
  named : ∀ p ∈ ps, keywords.contains p.name = false

instance (ps : List (Parameter Value)) : Decidable (ParameterList ps) :=
  decidable_of_iff ((∀ p ∈ ps, Proper p) ∧ Definable (ps.map slotOf) ∧
      ∀ p ∈ ps, keywords.contains p.name = false)
    ⟨fun h => ⟨h.1, h.2.1, h.2.2⟩, fun h => ⟨h.proper, h.definable, h.named⟩⟩

/-- What the argument list of a call gives in the body of a function whose parameters are
    bound. -/
def givenIn (host : Host) (s : Scope) (bound : Binding Value) (as : List Expr)
    (ks : List Keyword) : Comp (List Value × Names Value) := do
  let names ← boundNamesOf bound
  let a ← Comp.makeAt (.names names)
  let body := s.inside a (names.map (·.1))
  let args ← evaluateItems host body as
  let kwargs ← evaluateKeywords host body [] ks
  pure (args, kwargs)

/-- `Denotes text bound args kwargs`: in the brackets of a call the text is read as an argument
    list, which gives these arguments wherever the parameters are bound to these values. -/
def Denotes (text : String) (bound : Binding Value) (args : List Value) (kwargs : Names Value) :
    Prop :=
  ∀ callee, IsName callee → ∃ span place as ks,
    readExpression? (callee ++ "(" ++ text ++ ")").toList
      = some (.call span (.name place callee .load) as ks) ∧
    ∀ (host : Host) (s : Scope) (h : Heap), s.owner = none → ∃ h',
      givenIn host s bound as ks h = .done (args, kwargs) h' ∧ h.Grows h'

/-- The text of a call gives the arguments that the parameters stand for. -/
theorem denotes_forwardingText (hps : ParameterList ps)
    (hbound : Complete (ps.map slotOf) bound) :
    Denotes (", ".intercalate (ps.map forwarded)) bound (argumentsOf (ps.map slotOf) bound)
      (keywordsOf (ps.map slotOf) bound) := by
  intro callee hcallee
  have hidentifiers : ∀ p ∈ ps, IsName p.name := fun p hp =>
    ⟨(hps.definable.named (slotOf p) (List.mem_map_of_mem hp)).1, hps.named p hp⟩
  obtain ⟨span, place, as, ks, hread, has, hks⟩ :=
    readExpression?_call hcallee hps.proper hps.definable.toOrdered hidentifiers
  refine ⟨span, place, as, ks, hread, fun host s h howner => ?_⟩
  obtain ⟨names, h₁, hnames, hgrows, hstands⟩ := boundNamesOf_stands bound h
  have hframe : (h₁.add (.names names)).2.get? h₁.objects.size = some (.names names) :=
    h₁.get?_add_self _
  have hnodup : (names.map Prod.fst).Nodup := by
    have hkeys : bound.map Prod.fst = names.map Prod.fst :=
      map_eq_map_of_forall₂ hstands fun _ _ hx => hx.1.symm
    rw [← hkeys]
    exact hbound.nodup hps.definable.toOrdered
  have hvalues : List.Forall₂ (fun p e => (slotOf p).Fits e.2 ∧
      ∃ x, names.lookup p.name = some x ∧ Stands (h₁.add (.names names)).2 x e.2) ps bound := by
    have hfits := List.forall₂_map_left_iff.mp hbound.fits
    have hnamed : ∀ e ∈ bound, ∃ x ∈ names, x.1 = e.1 ∧ Stands h₁ x.2 e.2 :=
      exists_of_forall₂_right hstands.flip
    refine ((List.forall₂_and_left _ _).mpr ⟨hnamed, hfits.flip⟩).flip.imp ?_
    rintro p e ⟨⟨x, hx, hname, hvalue⟩, hslot, hfits⟩
    have hlookup : names.lookup p.name = some x.2 := by
      rw [show p.name = x.1 from hslot.symm.trans hname.symm]
      exact lookup_eq_some_of_mem hnodup hx
    exact ⟨hfits, x.2, hlookup, hvalue.grows (h₁.grows_add _)⟩
  obtain ⟨hitems, hkeywords⟩ := evaluate_forwarded howner hframe hps.proper hvalues
  have hargs := hitems as has
  have hkwargs := hkeywords [] ks (hbound.nodup_keywordsOf hps.definable) hks
  refine ⟨_, ?_, hgrows.trans (h₁.grows_add (.names names))⟩
  have hmake : Comp.makeAt (.names names) h₁
      = .done h₁.objects.size (h₁.add (.names names)).2 := rfl
  rw [givenIn, bind_of_done hnames, bind_of_done hmake, bind_of_done hargs, bind_of_done hkwargs]
  rfl

/-- **FORWARDING IS TRANSPARENT**: whatever call a signature accepts, the arguments that it is
    forwarded with are accepted again and give every parameter the same value, and the text of
    the call gives these arguments. -/
theorem forwarding_transparent (hps : ParameterList ps) (typeParameters : List String)
    (receiver : Option String) :
    ∃ slots, (reconstruct ps typeParameters receiver).slots false = .ok slots ∧
      ∀ (args : List Value) (kwargs : Names Value) (b : Binding Value),
        (kwargs.map Prod.fst).Nodup → bindArguments slots args kwargs = .ok b →
        ∃ args' kwargs',
          forward (reconstruct ps typeParameters receiver).declaration (applyDefaults slots b)
            = (args', kwargs') ∧
          (∃ b', bindArguments slots args' kwargs' = .ok b' ∧
            applyDefaults slots b' = applyDefaults slots b) ∧
          Denotes (reconstruct ps typeParameters receiver).forwardingText (applyDefaults slots b)
            args' kwargs' := by
  have hdeclaration : (reconstruct ps typeParameters receiver).declaration = ps :=
    reconstruct_declaration hps.proper hps.definable.toOrdered
  refine ⟨ps.map slotOf, ?_, fun args kwargs b hkeys hb => ?_⟩
  · unfold slots
    rw [hdeclaration]
    exact published_eq_ok.mpr ⟨rfl, hps.definable.toOrdered⟩
  have hbound : Complete (ps.map slotOf) (applyDefaults (ps.map slotOf) b) :=
    complete_of_bindArguments hps.definable hkeys hb
  refine ⟨_, _, ?_, ⟨_, bindArguments_of_complete hps.definable hbound,
    applyDefaults_of_complete hps.definable hbound⟩, ?_⟩
  · rw [hdeclaration]
    exact forward_of_complete hps.proper hps.definable hbound
  · unfold forwardingText
    rw [hdeclaration]
    exact denotes_forwardingText hps hbound

/-- Parameters of all kinds: `def f(a, /, b=2, *rest, c, d=4, **more)`. -/
def mixed : List (Parameter Value) :=
  [{ name := "a", positionalOnly := true },
   { name := "b", kind := .optionalPositional, default := some (.int 2) },
   { name := "rest", kind := .variadicPositional },
   { name := "c", kind := .requiredNamed },
   { name := "d", kind := .optionalNamed, default := some (.int 4) },
   { name := "more", kind := .variadicNamed }]

/-- A call that uses the name of the parameter that is only positional once more. -/
theorem forwarding_transparent_mixed :
    ParameterList mixed ∧ ∃ slots b,
      (reconstruct mixed [] none).slots false = .ok slots ∧
      bindArguments slots [.int 1] [("c", .int 3), ("a", .int 5)] = .ok b ∧
      ∃ args' kwargs',
        forward (reconstruct mixed [] none).declaration (applyDefaults slots b)
          = (args', kwargs') ∧
        (∃ b', bindArguments slots args' kwargs' = .ok b' ∧
          applyDefaults slots b' = applyDefaults slots b) ∧
        Denotes (reconstruct mixed [] none).forwardingText (applyDefaults slots b)
          args' kwargs' := by
  have hmixed : ParameterList mixed := by decide +kernel
  obtain ⟨slots, hslots, hall⟩ := forwarding_transparent hmixed [] none
  have hpublished : (reconstruct mixed [] none).slots false = .ok (mixed.map slotOf) := by
    unfold Signature.slots
    rw [reconstruct_declaration hmixed.proper hmixed.definable.toOrdered]
    exact published_eq_ok.mpr ⟨rfl, hmixed.definable.toOrdered⟩
  obtain rfl := Except.ok.inj (hslots.symm.trans hpublished)
  have hbound : bindArguments (mixed.map slotOf) [.int 1] [("c", .int 3), ("a", .int 5)]
      = .ok [("a", .one (.int 1)), ("c", .one (.int 3)), ("more", .named [("a", .int 5)])] := rfl
  exact ⟨hmixed, _, _, hslots, hbound, hall _ _ _ (by decide) hbound⟩

end Covenant.Machine
