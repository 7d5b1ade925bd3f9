import Covenant.Proofs.Condition.Insertion
import Covenant.Proofs.Condition.OldCalls

/-! # Qualification — bare names of fields become fields of the instance

    A bare name stands for a field where nothing else gives it a meaning.  The
    rules of scope say where that is: a `lambda` binds its parameters in its
    body, and a comprehension binds the names that its targets give values to,
    in all of its parts but the first iterable.

    * `qualify` follows these rules and nothing else.
    * `freeNames` are the names that a tree reads from around it.
    * `orderly` decides from a condition alone that its comprehensions are plain
      ones: the targets are patterns of names, and no field is read before the
      target that hides it.
    * `rewrite_qualifies` is the law: on orderly conditions rewriting is
      qualification.  `rewrite_qualifies_fails` has a target that reads a field;
      there the rewriter takes the field for a name that the target binds. -/

namespace Covenant.Condition

open Text Covenant.Tree

/-! ## The rules of scope -/

section Qualify

variable (s : Strategy)

mutual

/-- The tree with its calls of `old` looked up and its fields qualified, where `bound` are the
    names that do not stand for fields. -/
def qualify (bound : List String) : Expr → Expr
  | .name span id access =>
    if access = .load ∧ s.fields.contains id = true ∧ bound.contains id = false then
      memberField s span id
    else .name span id access
  | .constant span v => .constant span v
  | .field span v n a => .field span (qualify bound v) n a
  | .call span f as ks =>
    if isOldCall (.call span f as ks) then lookupCall s span (lookedUpField s as)
    else .call span (qualify bound f) (qualifyAll bound as) (qualifyKeywords bound ks)
  | .lambda span b kd ds e =>
    .lambda span b (qualifyAll bound kd) (qualifyAll bound ds) (qualify (b.names ++ bound) e)
  | .comprehension span k es gs =>
    .comprehension span k (qualifyAll (targetsOf gs ++ bound) es)
      (qualifyGenerators bound (targetsOf gs ++ bound) gs)
  | .compound span form ps => .compound span form (qualifyAll bound ps)

/-- Qualifies several trees. -/
def qualifyAll (bound : List String) : List Expr → List Expr
  | [] => []
  | e :: es => qualify bound e :: qualifyAll bound es

/-- Qualifies named arguments. -/
def qualifyKeywords (bound : List String) : List Keyword → List Keyword
  | [] => []
  | .mk span n v :: ks => .mk span n (qualify bound v) :: qualifyKeywords bound ks

/-- Qualifies the parts of a comprehension; the next iterable stands where `outer` are bound, all
    else where `inner` are. -/
def qualifyGenerators (outer inner : List String) : List Generator → List Generator
  | [] => []
  | .mk t i fs a :: gs =>
    .mk (qualify inner t) (qualify outer i) (qualifyAll inner fs) a
      :: qualifyGenerators inner inner gs

end

end Qualify

/-! ## Names that are read -/

/-- Those of some names that are not local. -/
def outside (locals names : List String) : List String := names.filter fun n => !locals.contains n

theorem mem_outside {locals names : List String} {x : String} :
    x ∈ outside locals names ↔ x ∈ names ∧ x ∉ locals := by
  simp [outside]

mutual

/-- The names that a tree reads from around it, calls of `old` aside. -/
def freeNames : Expr → List String
  | .name _ id access => if access = .load then [id] else []
  | .constant .. => []
  | .field _ v _ _ => freeNames v
  | .call span f as ks =>
    if isOldCall (.call span f as ks) then []
    else freeNames f ++ freeNamesAll as ++ freeNamesKeywords ks
  | .lambda _ b kd ds e => freeNamesAll kd ++ freeNamesAll ds ++ outside b.names (freeNames e)
  | .comprehension _ _ es gs =>
    freeNamesGenerators [] (targetsOf gs) gs ++ outside (targetsOf gs) (freeNamesAll es)
  | .compound _ _ ps => freeNamesAll ps

/-- The names that several trees read. -/
def freeNamesAll : List Expr → List String
  | [] => []
  | e :: es => freeNames e ++ freeNamesAll es

/-- The names that named arguments read. -/
def freeNamesKeywords : List Keyword → List String
  | [] => []
  | .mk _ _ v :: ks => freeNames v ++ freeNamesKeywords ks

/-- The names that the parts of a comprehension read; in the next iterable `outer` are local, in
    all else `inner` are. -/
def freeNamesGenerators (outer inner : List String) : List Generator → List String
  | [] => []
  | .mk t i fs _ :: gs =>
    outside outer (freeNames i) ++ outside inner (freeNames t ++ freeNamesAll fs)
      ++ freeNamesGenerators inner inner gs

end

/-- Behind the first iterable, the targets of a comprehension are not read from around it. -/
theorem not_mem_of_mem_freeNamesGenerators {locals : List String} {x : String}
    {gs : List Generator} (h : x ∈ freeNamesGenerators locals locals gs) : x ∉ locals := by
  induction gs with
  | nil => exact nomatch h
  | cons g gs ih =>
      obtain ⟨t, i, fs, a⟩ := g
      rcases List.mem_append.mp h with h | h
      · rcases List.mem_append.mp h with h | h
        · exact (mem_outside.1 h).2
        · exact (mem_outside.1 h).2
      · exact ih h

/-! ## Patterns of names -/

mutual

/-- Whether a target only gives values to names: it is one, or takes a value apart. -/
def isPattern : Expr → Bool
  | .name _ _ access => access == .store
  | .compound _ (.tuple _) ps | .compound _ (.list _) ps | .compound _ (.starred _) ps =>
    arePatterns ps
  | _ => false

/-- Whether several targets are patterns of names. -/
def arePatterns : List Expr → Bool
  | [] => true
  | e :: es => isPattern e && arePatterns es

end

mutual

/-- A pattern has no names but those that it binds. -/
theorem allNames_eq_targetNames : (t : Expr) → isPattern t = true →
    allNames t = Machine.targetNames t
  | .name .., _ => rfl
  | .compound _ form ps, h => by
      cases form with
      | tuple | list | starred => exact allNamesAll_eq_targetNamesAll ps h
      | boolOp | namedExpr | binOp | unaryOp | ifExp | dict | set | await | yield | yieldFrom
      | compare | formattedValue | joinedStr | subscript | slice => exact nomatch h
  | .constant .., h | .field .., h | .call .., h | .lambda .., h | .comprehension .., h =>
      nomatch h

theorem allNamesAll_eq_targetNamesAll : (ts : List Expr) → arePatterns ts = true →
    allNamesAll ts = Machine.targetNamesAll ts
  | [], _ => rfl
  | t :: ts, h => by
      obtain ⟨ht, hts⟩ := Bool.and_eq_true_iff.mp h
      rw [allNamesAll, Machine.targetNamesAll, allNames_eq_targetNames t ht,
        allNamesAll_eq_targetNamesAll ts hts]

end

section Orderly

variable (s : Strategy)

mutual

/-- A pattern reads nothing that could be qualified. -/
theorem qualify_of_isPattern : (t : Expr) → isPattern t = true → (bound : List String) →
    qualify s bound t = t
  | .name span id access, h, bound => by
      have hstore : access = .store := eq_of_beq h
      rw [qualify, if_neg]
      rw [hstore]
      exact fun hload => nomatch hload.1
  | .compound span form ps, h, bound => by
      cases form with
      | tuple | list | starred =>
          exact congrArg (Expr.compound span _) (qualifyAll_of_arePatterns ps h bound)
      | boolOp | namedExpr | binOp | unaryOp | ifExp | dict | set | await | yield | yieldFrom
      | compare | formattedValue | joinedStr | subscript | slice => exact nomatch h
  | .constant .., h, _ | .field .., h, _ | .call .., h, _ | .lambda .., h, _
  | .comprehension .., h, _ => nomatch h

theorem qualifyAll_of_arePatterns : (ts : List Expr) → arePatterns ts = true →
    (bound : List String) → qualifyAll s bound ts = ts
  | [], _, _ => rfl
  | t :: ts, h, bound => by
      obtain ⟨ht, hts⟩ := Bool.and_eq_true_iff.mp h
      rw [qualifyAll, qualify_of_isPattern t ht, qualifyAll_of_arePatterns ts hts]

end

/-! ## Orderly conditions -/

/-- Whether the fields among some names that are local are bound where they are read. -/
def inTime (locals bound names : List String) : Bool :=
  names.all fun n => !s.fields.contains n || !locals.contains n || bound.contains n

mutual

/-- Whether each comprehension of a tree takes values apart by patterns, and reads no field before
    the target that hides it; `bound` are the names that do not stand for fields. -/
def orderly (bound : List String) : Expr → Bool
  | .name .. | .constant .. => true
  | .field _ v _ _ => orderly bound v
  | .call span f as ks =>
    isOldCall (.call span f as ks)
      || orderly bound f && orderlyAll bound as && orderlyKeywords bound ks
  | .lambda _ b kd ds e =>
    orderlyAll bound kd && orderlyAll bound ds && orderly (b.names ++ bound) e
  | .comprehension _ _ es gs =>
    orderlyGenerators bound [] (targetsOf gs) gs && orderlyAll (boundAfter bound gs) es
  | .compound _ _ ps => orderlyAll bound ps

/-- Whether several trees are orderly. -/
def orderlyAll (bound : List String) : List Expr → Bool
  | [] => true
  | e :: es => orderly bound e && orderlyAll bound es

/-- Whether named arguments are orderly. -/
def orderlyKeywords (bound : List String) : List Keyword → Bool
  | [] => true
  | .mk _ _ v :: ks => orderly bound v && orderlyKeywords bound ks

/-- Whether the parts of a comprehension are orderly; in the next iterable `outer` are local, in
    all else `inner` are. -/
def orderlyGenerators (bound outer inner : List String) : List Generator → Bool
  | [] => true
  | .mk t i fs _ :: gs =>
    isPattern t && inTime s outer bound (freeNames i) && orderly bound i
      && inTime s inner (allNames t ++ bound) (freeNamesAll fs)
      && orderlyAll (allNames t ++ bound) fs
      && orderlyGenerators (allNames t ++ bound) inner inner gs

end

/-! ## Agreement -/

/-- Two lists of bound names agree on the fields among some names. -/
def Agree (bound bound' names : List String) : Prop :=
  ∀ n ∈ names, s.fields.contains n = true → (n ∈ bound ↔ n ∈ bound')

variable {s} {bound bound' : List String}

theorem agree_append {xs ys : List String} :
    Agree s bound bound' (xs ++ ys) ↔ Agree s bound bound' xs ∧ Agree s bound bound' ys :=
  List.forall_mem_append

theorem agree_self (names : List String) : Agree s bound bound names := by
  intro n _ _
  exact Iff.rfl

/-- Names that are bound in addition may be read. -/
theorem Agree.under {locals names : List String}
    (h : Agree s bound bound' (outside locals names)) :
    Agree s (locals ++ bound) (locals ++ bound') names := by
  intro n hn hfield
  rw [List.mem_append, List.mem_append]
  by_cases hlocal : n ∈ locals
  · exact iff_of_true (.inl hlocal) (.inl hlocal)
  · rw [h n (mem_outside.2 ⟨hn, hlocal⟩) hfield]

/-- Local names may be read once they are bound. -/
theorem Agree.local {locals names : List String}
    (h : Agree s bound bound' (outside locals names)) (htime : inTime s locals bound names = true) :
    Agree s bound (locals ++ bound') names := by
  intro n hn hfield
  rw [List.mem_append]
  by_cases hlocal : n ∈ locals
  · have hbound := List.all_eq_true.mp htime n hn
    simp only [hfield, List.contains_iff_mem.mpr hlocal, Bool.not_true, Bool.false_or,
      List.contains_iff_mem] at hbound
    exact iff_of_true hbound (.inl hlocal)
  · rw [h n (mem_outside.2 ⟨hn, hlocal⟩) hfield]
    exact ⟨.inr, fun hor => hor.resolve_left hlocal⟩

/-- Binding some of the names that are not read makes no difference. -/
theorem Agree.bind {names more : List String} (h : Agree s bound bound' names)
    (hmore : ∀ n ∈ names, n ∉ more) : Agree s (more ++ bound) bound' names := by
  intro n hn hfield
  rw [List.mem_append, ← h n hn hfield]
  exact ⟨fun hor => hor.resolve_left (hmore n hn), .inr⟩

/-- The parts of an orderly comprehension bind its targets. -/
theorem mem_boundAfter {gs : List Generator} {n : String} {outer inner : List String}
    (h : orderlyGenerators s bound outer inner gs = true) :
    n ∈ boundAfter bound gs ↔ n ∈ targetsOf gs ∨ n ∈ bound := by
  induction gs generalizing bound outer with
  | nil => simp [boundAfter, targetsOf]
  | cons g gs ih =>
      obtain ⟨t, i, fs, a⟩ := g
      simp only [orderlyGenerators, Bool.and_eq_true] at h
      obtain ⟨⟨⟨⟨⟨ht, -⟩, -⟩, -⟩, -⟩, hgs⟩ := h
      have htargets : targetsOf (.mk t i fs a :: gs) = Machine.targetNames t ++ targetsOf gs := rfl
      rw [boundAfter, ih hgs, htargets, List.mem_append, List.mem_append,
        allNames_eq_targetNames t ht, or_left_comm, or_assoc]

/-! ## Rewriting -/

mutual

/-- Rewriting an orderly tree qualifies it. -/
theorem rewriteWith_eq_qualify : (e : Expr) → (bound bound' : List String) →
    orderly s bound e = true → Agree s bound bound' (freeNames e) →
    (rewriteWith s bound e).1 = qualify s bound' e
  | .name span id access, bound, bound', _, hagree => by
      rw [rewriteWith, qualify]
      by_cases hfield : access = .load ∧ s.fields.contains id = true
      · have hread : id ∈ freeNames (.name span id access) := by
          rw [freeNames, if_pos hfield.1]
          exact List.mem_singleton_self id
        have hsame : bound.contains id = bound'.contains id := by
          rw [Bool.eq_iff_iff, List.contains_iff_mem, List.contains_iff_mem]
          exact hagree id hread hfield.2
        rw [hsame]
        split <;> rfl
      · rw [if_neg fun h => hfield ⟨h.1, h.2.1⟩, if_neg fun h => hfield ⟨h.1, h.2.1⟩]
  | .constant .., _, _, _, _ => rfl
  | .field span v n a, bound, bound', horder, hagree =>
      congrArg (Expr.field span · n a) (rewriteWith_eq_qualify v bound bound' horder hagree)
  | .call span f as ks, bound, bound', horder, hagree => by
      rw [orderly, Bool.or_eq_true] at horder
      rw [freeNames] at hagree
      rw [rewriteWith, qualify]
      by_cases hold : isOldCall (.call span f as ks) = true
      · rw [if_pos hold, if_pos hold]
      · rw [if_neg hold] at hagree
        obtain ⟨hhead, hks⟩ := Bool.and_eq_true_iff.mp (horder.resolve_left hold)
        obtain ⟨hf, has⟩ := Bool.and_eq_true_iff.mp hhead
        obtain ⟨hagree, hagreeks⟩ := agree_append.1 hagree
        obtain ⟨hagreef, hagreeas⟩ := agree_append.1 hagree
        rw [if_neg hold, if_neg hold, ← rewriteWith_eq_qualify f bound bound' hf hagreef,
          ← rewriteAll_eq_qualifyAll as bound bound' has hagreeas,
          ← rewriteKeywords_eq_qualifyKeywords ks bound bound' hks hagreeks]
  | .lambda span b kd ds e, bound, bound', horder, hagree => by
      obtain ⟨hdefaults, he⟩ := Bool.and_eq_true_iff.mp horder
      obtain ⟨hkd, hds⟩ := Bool.and_eq_true_iff.mp hdefaults
      obtain ⟨hagree, hagreee⟩ := agree_append.1 hagree
      obtain ⟨hagreekd, hagreeds⟩ := agree_append.1 hagree
      rw [qualify, ← rewriteAll_eq_qualifyAll kd bound bound' hkd hagreekd,
        ← rewriteAll_eq_qualifyAll ds bound bound' hds hagreeds,
        ← rewriteWith_eq_qualify e (b.names ++ bound) (b.names ++ bound') he hagreee.under]
      rfl
  | .comprehension span k es gs, bound, bound', horder, hagree => by
      obtain ⟨hgs, hes⟩ := Bool.and_eq_true_iff.mp horder
      obtain ⟨hagreegs, hagreees⟩ := agree_append.1 hagree
      have helements : Agree s (boundAfter bound gs) (targetsOf gs ++ bound') (freeNamesAll es) := by
        intro n hn hfield
        rw [mem_boundAfter hgs, ← List.mem_append]
        exact hagreees.under n hn hfield
      rw [qualify, ← rewriteAll_eq_qualifyAll es _ _ hes helements,
        ← bound_rewriteGenerators s gs bound]
      exact congrArg (Expr.comprehension span k _) (rewriteGenerators_eq_qualifyGenerators gs
        bound bound' [] (targetsOf gs) hgs (fun n hn => hn) hagreegs)
  | .compound span form ps, bound, bound', horder, hagree =>
      congrArg (Expr.compound span form) (rewriteAll_eq_qualifyAll ps bound bound' horder hagree)

theorem rewriteAll_eq_qualifyAll : (es : List Expr) → (bound bound' : List String) →
    orderlyAll s bound es = true → Agree s bound bound' (freeNamesAll es) →
    (rewriteAll s bound es).1 = qualifyAll s bound' es
  | [], _, _, _, _ => rfl
  | e :: es, bound, bound', horder, hagree => by
      obtain ⟨he, hes⟩ := Bool.and_eq_true_iff.mp horder
      obtain ⟨hagreee, hagreees⟩ := agree_append.1 hagree
      rw [qualifyAll, ← rewriteWith_eq_qualify e bound bound' he hagreee,
        ← rewriteAll_eq_qualifyAll es bound bound' hes hagreees]
      rfl

theorem rewriteKeywords_eq_qualifyKeywords : (ks : List Keyword) → (bound bound' : List String) →
    orderlyKeywords s bound ks = true → Agree s bound bound' (freeNamesKeywords ks) →
    (rewriteKeywords s bound ks).1 = qualifyKeywords s bound' ks
  | [], _, _, _, _ => rfl
  | .mk _ _ v :: ks, bound, bound', horder, hagree => by
      obtain ⟨hv, hks⟩ := Bool.and_eq_true_iff.mp horder
      obtain ⟨hagreev, hagreeks⟩ := agree_append.1 hagree
      rw [qualifyKeywords, ← rewriteWith_eq_qualify v bound bound' hv hagreev,
        ← rewriteKeywords_eq_qualifyKeywords ks bound bound' hks hagreeks]
      rfl

theorem rewriteGenerators_eq_qualifyGenerators : (gs : List Generator) →
    (bound bound' outer inner : List String) →
    orderlyGenerators s bound outer inner gs = true → (∀ n ∈ targetsOf gs, n ∈ inner) →
    Agree s bound bound' (freeNamesGenerators outer inner gs) →
    (rewriteGenerators s bound gs).1 = qualifyGenerators s (outer ++ bound') (inner ++ bound') gs
  | [], _, _, _, _, _, _, _ => rfl
  | .mk t i fs a :: gs, bound, bound', outer, inner, horder, htargets, hagree => by
      simp only [orderlyGenerators, Bool.and_eq_true] at horder
      obtain ⟨⟨⟨⟨⟨ht, hitime⟩, hi⟩, hfstime⟩, hfs⟩, hgs⟩ := horder
      obtain ⟨hagree, hagreegs⟩ := agree_append.1 hagree
      obtain ⟨hagreei, hagreehere⟩ := agree_append.1 hagree
      have hlocal : ∀ n ∈ allNames t, n ∈ inner := by
        intro n hn
        rw [allNames_eq_targetNames t ht] at hn
        exact htargets n (List.mem_append_left _ hn)
      -- what is read around here are no targets, so binding this one changes nothing for it
      have hfilters : Agree s (allNames t ++ bound) bound' (outside inner (freeNamesAll fs)) := by
        refine Agree.bind ?_ fun n hn hmem => (mem_outside.1 hn).2 (hlocal n hmem)
        intro n hn hfield
        obtain ⟨hread, hnot⟩ := mem_outside.1 hn
        exact hagreehere n (mem_outside.2 ⟨List.mem_append_right _ hread, hnot⟩) hfield
      have hrest : Agree s (allNames t ++ bound) bound' (freeNamesGenerators inner inner gs) :=
        hagreegs.bind fun n hn hmem =>
          not_mem_of_mem_freeNamesGenerators hn (hlocal n hmem)
      rw [qualifyGenerators, qualify_of_isPattern s t ht,
        ← rewriteWith_eq_qualify i bound _ hi (hagreei.local hitime),
        ← rewriteAll_eq_qualifyAll fs _ _ hfs (hfilters.local hfstime),
        ← rewriteGenerators_eq_qualifyGenerators gs _ bound' inner inner hgs
          (fun n hn => htargets n (List.mem_append_right _ hn)) hrest]
      rfl

end

end Orderly

/-- **REWRITING QUALIFIES** the fields of an orderly condition by the rules of scope: a name that is
    read becomes a field of the instance exactly where it is the name of a field, is not shadowed,
    and no `lambda` and no comprehension around its place binds it. -/
theorem rewrite_qualifies {s : Strategy} {e : Expr} (h : orderly s s.shadowed e = true) :
    rewrite s e = (references none s.self e).map fun _ => qualify s s.shadowed e := by
  rw [← rewriteWith_eq_qualify e s.shadowed s.shadowed h (agree_self _), rewrite, rewriteWithEdits]
  cases references none s.self e with
  | error fault => rfl
  | ok rs => rfl

/-- The first iterable of a comprehension reads the field that a target hides, and all else reads
    the target. -/
theorem rewrite_qualifies_scopes : ∃ e,
    parse "any(total > n for n, total in pairs(total) if (lambda k=total: k + total)())" = .ok e ∧
      orderly (.memberScope ["total"] []) [] e = true ∧
      rewrite (.memberScope ["total"] []) e = .ok (qualify (.memberScope ["total"] []) [] e) ∧
      loadedNames (qualify (.memberScope ["total"] []) [] e) =
        ["any", "total", "n", "pairs", "self", "total", "k", "total"] := by
  have hread : (parse
      "any(total > n for n, total in pairs(total) if (lambda k=total: k + total)())").toOption.bind
        (fun e => (references none selfName e).toOption.map fun _ =>
          (orderly (.memberScope ["total"] []) [] e,
            loadedNames (qualify (.memberScope ["total"] []) [] e)))
      = some (true, ["any", "total", "n", "pairs", "self", "total", "k", "total"]) := by
    rw [parse_ofList]
    decide +kernel
  obtain ⟨e, he, hread⟩ := Option.bind_eq_some_iff.mp hread
  obtain ⟨rs, hrs, hread⟩ := Option.map_eq_some_iff.mp hread
  obtain ⟨horder, hnames⟩ := Prod.mk.inj hread
  have hrewritten := rewrite_qualifies (s := .memberScope ["total"] []) horder
  refine ⟨e, toOption_eq_some.mp he, horder, ?_, hnames⟩
  rw [hrewritten]
  exact map_eq_ok.mpr ⟨rs, toOption_eq_some.mp hrs, rfl⟩

/-- A target that reads a field binds nothing, but both places where the field is read stay. -/
theorem rewrite_qualifies_fails : ∃ e e', parse "[total for rows[total] in xs]" = .ok e ∧
    rewrite (.memberScope ["total"] []) e = .ok e' ∧
    loadedNames e' = ["total", "xs", "rows", "total"] ∧
    loadedNames (qualify (.memberScope ["total"] []) [] e) = ["self", "xs", "rows", "self"] := by
  have hread : (parse "[total for rows[total] in xs]").toOption.bind (fun e =>
      (rewrite (.memberScope ["total"] []) e).toOption.map fun e' =>
        (loadedNames e', loadedNames (qualify (.memberScope ["total"] []) [] e)))
      = some (["total", "xs", "rows", "total"], ["self", "xs", "rows", "self"]) := by
    rw [parse_ofList]
    decide +kernel
  obtain ⟨e, he, hread⟩ := Option.bind_eq_some_iff.mp hread
  obtain ⟨e', he', hread⟩ := Option.map_eq_some_iff.mp hread
  obtain ⟨hleft, hright⟩ := Prod.mk.inj hread
  exact ⟨e, e', toOption_eq_some.mp he, toOption_eq_some.mp he', hleft, hright⟩

end Covenant.Condition
