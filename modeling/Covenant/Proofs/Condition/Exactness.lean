import Covenant.Proofs.Condition.Lookup
import Covenant.Proofs.Condition.RightCalls
import Covenant.Proofs.Grammar.Nesting

/-! # Exactness — rewriting changes what it records

    For every edit there is one node of the tree, and the rewritten tree has the
    expression that the edit spells in the place of that node.  Everywhere else
    the two trees are alike.

    * `Rewrites` follows a rewriting from the root down: a node is replaced, with
      an edit, or it keeps its head and its parts are rewritten.  What
      `rewriteWith` does is one (`rewrites_rewriteWith`).
    * `Framed` says the same of places: no place that is recorded lies inside
      another, the node at each is replaced, and outside of them every head
      stays.  There is only one such tree (`Framed.unique`).
    * Since what is parsed is nested, the spans of the edits do not overlap. -/

namespace Covenant.Condition

open Covenant.Tree

variable {s : Strategy} {x y e e' : Expr} {edit : Edit} {edits edits' : List Edit}
  {xs ys xs' ys' : List Expr}

/-! ## Replacements -/

/-- `Spells s x y edit`: the edit spells the expression `y`, which stands for the node `x`. -/
inductive Spells (s : Strategy) : Expr → Expr → Edit → Prop where
  | member {span : Span} {id : String} (hid : id ∈ s.fields) :
      Spells s (.name span id .load) (memberField s span id) (memberEdit s span id)
  | lookup {x : Expr} {f : String} (hx : NamesField s.self x f) :
      Spells s x (lookupCall s x.span f) (lookupEdit s x.span f)

/-- A node with what is put in its place: all of it has the span of the node, and so has the edit
    that spells it. -/
structure Replacement (s : Strategy) (x y : Expr) (edit : Edit) : Prop where
  spells : Spells s x y edit
  span : edit.span = x.span
  spans : ∀ n ∈ y.nodes, n.span = x.span

theorem Spells.replacement (h : Spells s x y edit) : Replacement s x y edit := by
  refine ⟨h, ?_, ?_⟩
  · cases h <;> rfl
  · intro n hn
    cases h with
    | member hid =>
        rcases mem_nodes_field.mp hn with rfl | hn
        · rfl
        · rw [mem_nodes_name.mp hn]
          rfl
    | lookup hx =>
        rcases mem_nodes_call.mp hn with rfl | hn | hn | hn
        · rfl
        · rw [mem_nodes_name.mp hn]
          rfl
        · rcases mem_preorderAll_cons.mp hn with hn | hn
          · rw [mem_nodes_constant.mp hn]
            rfl
          · cases hn
        · cases hn

/-- Neither names nor calls are pieces of literals. -/
theorem Spells.isLiteral (h : Spells s x y edit) : x.isLiteral = false := by
  cases h with
  | member hid => rfl
  | lookup hx => cases hx <;> rfl

/-- Only one expression stands for a node. -/
theorem Spells.unique {y' : Expr} {edit' : Edit} (h : Spells s x y edit)
    (h' : Spells s x y' edit') : y = y' := by
  cases h with
  | member hid =>
      cases h' with
      | member hid' => rfl
      | lookup hx => cases hx
  | lookup hx =>
      cases h' with
      | member hid => cases hx
      | lookup hx' =>
          have hfield := congrArg (Option.map OldReference.field)
            (hx.oldCall?.symm.trans hx'.oldCall?)
          cases hfield
          rfl

/-! ## Rewriting from the root down -/

/-- `Rewrites s xs ys edits`: of several trees, some nodes have been replaced with an edit each, and
    the others have kept their heads. -/
inductive Rewrites (s : Strategy) : List Expr → List Expr → List Edit → Prop where
  | nil : Rewrites s [] [] []
  | replace {x y : Expr} {edit : Edit} {xs ys : List Expr} {edits : List Edit}
      (hx : Spells s x y edit) (hxs : Rewrites s xs ys edits) :
      Rewrites s (x :: xs) (y :: ys) (edit :: edits)
  | descend {x y : Expr} {xs ys : List Expr} {edits edits' : List Edit} (hhead : y.head = x.head)
      (hparts : Rewrites s x.parts y.parts edits) (hxs : Rewrites s xs ys edits') :
      Rewrites s (x :: xs) (y :: ys) (edits ++ edits')

theorem Rewrites.append (h : Rewrites s xs ys edits) (h' : Rewrites s xs' ys' edits') :
    Rewrites s (xs ++ xs') (ys ++ ys') (edits ++ edits') := by
  induction h with
  | nil => exact h'
  | replace hx _ ih => exact .replace hx ih
  | descend hhead hparts _ _ ih =>
      rw [List.append_assoc]
      exact .descend hhead hparts ih

theorem Rewrites.cons (h : Rewrites s [x] [y] edits) (h' : Rewrites s xs ys edits') :
    Rewrites s (x :: xs) (y :: ys) (edits ++ edits') :=
  h.append h'

/-- A node that keeps its head, with its parts rewritten. -/
theorem Rewrites.node (hhead : e'.head = e.head) (h : Rewrites s e.parts e'.parts edits) :
    Rewrites s [e] [e'] edits := by
  have hone := Rewrites.descend hhead h .nil
  rwa [List.append_nil] at hone

theorem Rewrites.length_eq (h : Rewrites s xs ys edits) : ys.length = xs.length := by
  induction h with
  | nil => rfl
  | replace _ _ ih | descend _ _ _ _ ih => exact congrArg (· + 1) ih

/-- Rewritten parts leave the same holes. -/
theorem Rewrites.holes (h : Rewrites s xs ys edits) :
    ys.map (fun _ => hole) = xs.map fun _ => hole := by
  rw [List.map_const', List.map_const', h.length_eq]

/-- A tree may stay as it is. -/
theorem Rewrites.same (e : Expr) : Rewrites s [e] [e] [] := by
  induction e using induction_parts with
  | h e ih =>
      refine .node rfl ?_
      generalize e.parts = ps at ih
      induction ps with
      | nil => exact .nil
      | cons p ps ihs =>
          obtain ⟨hp, hps⟩ := List.forall_mem_cons.mp ih
          exact hp.cons (ihs hps)

/-! ## Rewriting -/

section Rewriting

variable {bound : List String}

theorem heads_rewriteKeywords (ks : List Keyword) :
    (rewriteKeywords s bound ks).1.map Keyword.head = ks.map Keyword.head := by
  induction ks with
  | nil => rfl
  | cons k ks ih =>
      obtain ⟨span, n, v⟩ := k
      exact congrArg (Keyword.mk span n hole :: ·) ih

theorem holes_rewriteAll (es : List Expr) :
    (rewriteAll s bound es).1.map (fun _ => hole) = es.map fun _ => hole := by
  induction es with
  | nil => rfl
  | cons e es ih => exact congrArg (hole :: ·) ih

theorem heads_rewriteGenerators (gs : List Generator) (bound : List String) :
    (rewriteGenerators s bound gs).1.map Generator.head = gs.map Generator.head := by
  induction gs generalizing bound with
  | nil => rfl
  | cons g gs ih =>
      obtain ⟨t, i, fs, a⟩ := g
      exact congrArg₂ (fun holes heads => Generator.mk hole hole holes a :: heads)
        (holes_rewriteAll fs) (ih (allNames t ++ bound))

end Rewriting

theorem all_part {P : Expr → Prop} {p : Expr} (h : e.All P) (hp : p ∈ e.parts) : p.All P :=
  fun n hn => h n (mem_nodes_of_mem_parts hp hn)

mutual

/-- **REWRITING REPLACES NODES**, with an edit for each, once all calls of `old` are right. -/
theorem rewrites_rewriteWith : (e : Expr) → (bound : List String) → e.All (Right s.self) →
    Rewrites s [e] [(rewriteWith s bound e).1] (rewriteWith s bound e).2
  | .name span id a, bound, _ => by
      rw [rewriteWith]
      by_cases hfree : a = .load ∧ s.fields.contains id = true ∧ bound.contains id = false
      · rw [if_pos hfree]
        obtain ⟨rfl, hid, -⟩ := hfree
        exact .replace (.member (List.contains_iff_mem.mp hid)) .nil
      · rw [if_neg hfree]
        exact .same _
  | .constant span v, _, _ => .same _
  | .field span v n a, bound, h =>
      .node rfl (rewrites_rewriteWith v bound (all_part h List.mem_cons_self))
  | .call span f as ks, bound, h => by
      rw [rewriteWith]
      by_cases hcall : isOldCall (.call span f as ks) = true
      · rw [if_pos hcall]
        obtain ⟨field, hfield⟩ := h.self hcall
        rw [lookedUpField_eq hfield.oldCall?]
        exact .replace (.lookup hfield) .nil
      · rw [if_neg hcall]
        have hf := rewrites_rewriteWith f bound (all_part h List.mem_cons_self)
        have has := rewrites_rewriteAll as bound fun e he =>
          all_part h (List.mem_cons_of_mem f (List.mem_append_left _ he))
        have hks := rewrites_rewriteKeywords ks bound fun e he =>
          all_part h (List.mem_cons_of_mem f (List.mem_append_right as he))
        refine .node ?_ ?_
        · show Expr.call span hole _ _ = Expr.call span hole _ _
          rw [has.holes, heads_rewriteKeywords]
        · have hall := hf.cons (has.append hks)
          rw [← List.append_assoc (rewriteWith s bound f).2] at hall
          exact hall
  | .lambda span b kd ds e, bound, h => by
      have hkd := rewrites_rewriteAll kd bound fun e he => all_part h (List.mem_append_left _ he)
      have hds := rewrites_rewriteAll ds bound fun e he =>
        all_part h (List.mem_append_right kd (List.mem_append_left _ he))
      have he := rewrites_rewriteWith e (b.names ++ bound) (all_part h
        (List.mem_append_right kd (List.mem_append_right ds (List.mem_singleton_self e))))
      rw [rewriteWith]
      refine .node ?_ ?_
      · show Expr.lambda span b _ _ hole = Expr.lambda span b _ _ hole
        rw [hkd.holes, hds.holes]
      · have hall := hkd.append (hds.append he)
        rw [← List.append_assoc (rewriteAll s bound kd).2] at hall
        exact hall
  | .comprehension span k es gs, bound, h => by
      have hgs := rewrites_rewriteGenerators gs bound fun e he =>
        all_part h (List.mem_append_left _ he)
      have hes := rewrites_rewriteAll es (rewriteGenerators s bound gs).2.1 fun e he =>
        all_part h (List.mem_append_right _ he)
      rw [rewriteWith]
      refine .node ?_ (hgs.append hes)
      show Expr.comprehension span k _ _ = Expr.comprehension span k _ _
      rw [hes.holes, heads_rewriteGenerators]
  | .compound span form ps, bound, h => by
      have hps := rewrites_rewriteAll ps bound fun e he => all_part h he
      rw [rewriteWith]
      refine .node ?_ hps
      show Expr.compound span form _ = Expr.compound span form _
      rw [hps.holes]

theorem rewrites_rewriteAll : (es : List Expr) → (bound : List String) →
    (∀ e ∈ es, e.All (Right s.self)) →
    Rewrites s es (rewriteAll s bound es).1 (rewriteAll s bound es).2
  | [], _, _ => .nil
  | e :: es, bound, h => by
      obtain ⟨he, hes⟩ := List.forall_mem_cons.mp h
      exact (rewrites_rewriteWith e bound he).cons (rewrites_rewriteAll es bound hes)

theorem rewrites_rewriteKeywords : (ks : List Keyword) → (bound : List String) →
    (∀ e ∈ ks.map Keyword.value, e.All (Right s.self)) →
    Rewrites s (ks.map Keyword.value) ((rewriteKeywords s bound ks).1.map Keyword.value)
      (rewriteKeywords s bound ks).2
  | [], _, _ => .nil
  | .mk span n v :: ks, bound, h => by
      obtain ⟨hv, hks⟩ := List.forall_mem_cons.mp h
      exact (rewrites_rewriteWith v bound hv).cons (rewrites_rewriteKeywords ks bound hks)

theorem rewrites_rewriteGenerators : (gs : List Generator) → (bound : List String) →
    (∀ e ∈ gs.flatMap Generator.parts, e.All (Right s.self)) →
    Rewrites s (gs.flatMap Generator.parts)
      ((rewriteGenerators s bound gs).1.flatMap Generator.parts) (rewriteGenerators s bound gs).2.2
  | [], _, _ => .nil
  | .mk t i fs a :: gs, bound, h => by
      obtain ⟨hg, hgs⟩ := List.forall_mem_append.mp h
      obtain ⟨-, hif⟩ := List.forall_mem_cons.mp hg
      obtain ⟨hi, hfs⟩ := List.forall_mem_cons.mp hif
      have hrest := rewrites_rewriteGenerators gs (allNames t ++ bound) hgs
      have hfilters := rewrites_rewriteAll fs (allNames t ++ bound) hfs
      -- the target is left alone
      have hall := (Rewrites.same t).cons
        ((rewrites_rewriteWith i bound hi).cons (hfilters.append hrest))
      rw [List.nil_append, ← List.append_assoc] at hall
      exact hall

end

/-! ## Places -/

/-- `Framed s look look' places edits`: of two trees, or lists of trees, the first has nodes at the
    places, each of which is replaced by what its edit spells, and that is all that changes. -/
structure Framed (s : Strategy) (look look' : Path → Option Expr) (places : List Path)
    (edits : List Edit) : Prop where
  /-- No place lies inside another. -/
  apart : places.Pairwise fun p q => ¬ p <+: q ∧ ¬ q <+: p
  replaced : List.Forall₂ (fun p edit =>
    ∃ x y, look p = some x ∧ look' p = some y ∧ Replacement s x y edit) places edits
  /-- What is not at a place or inside of one keeps its head. -/
  kept : ∀ p, (∀ q ∈ places, ¬ q <+: p) → (look' p).map Expr.head = (look p).map Expr.head

section Places

variable {look' : Path → Option Expr} {places ps qs : List Path}

theorem framed_here (h : Spells s x y edit) : Framed s x.at? y.at? [[]] [edit] where
  apart := List.pairwise_singleton _ _
  replaced := .cons ⟨x, y, rfl, rfl, h.replacement⟩ .nil
  kept _ hout := absurd List.nil_prefix (hout [] List.mem_cons_self)

theorem framed_nil : Framed s (atAll? []) (atAll? []) [] [] where
  apart := .nil
  replaced := .nil
  kept _ _ := rfl

/-- Places in the parts of a node are places in the node. -/
theorem Framed.node (hhead : e'.head = e.head)
    (h : Framed s (atAll? e.parts) (atAll? e'.parts) places edits) :
    Framed s e.at? e'.at? places edits := by
  refine ⟨h.apart, h.replaced.imp fun p edit hp => ?_, fun p hout => ?_⟩
  · obtain ⟨x, y, hx, hy, hxy⟩ := hp
    cases p with
    | nil => cases hx
    | cons i p => exact ⟨x, y, hx, hy, hxy⟩
  · cases p with
    | nil => exact congrArg some hhead
    | cons i p => exact h.kept (i :: p) hout

/-- There are no places at the top of a list of trees. -/
theorem Framed.ne_nil {look' : Path → Option Expr} (h : Framed s (atAll? xs) look' places edits)
    {p : Path} (hp : p ∈ places) : p ≠ [] := by
  obtain ⟨edit, -, x, y, hx, -⟩ := exists_partner h.replaced hp
  rintro rfl
  cases hx

/-- One more tree in front of others. -/
theorem Framed.cons (h : Framed s e.at? e'.at? ps edits)
    (h' : Framed s (atAll? xs) (atAll? ys) qs edits') :
    Framed s (atAll? (e :: xs)) (atAll? (e' :: ys)) (ps.map (0 :: ·) ++ qs.map Path.behindFirst)
      (edits ++ edits') := by
  refine ⟨?_, List.rel_append ?_ ?_, fun p hout => ?_⟩
  · refine List.pairwise_append.mpr ⟨?_, ?_, ?_⟩
    · refine List.pairwise_map.mpr (h.apart.imp fun hpq => ?_)
      simpa only [List.cons_prefix_cons, true_and] using hpq
    · refine List.pairwise_map.mpr (h'.apart.imp fun hpq => ?_)
      simpa only [behindFirst_isPrefix] using hpq
    · intro p hp q hq
      obtain ⟨p, -, rfl⟩ := List.mem_map.mp hp
      obtain ⟨q, hmem, rfl⟩ := List.mem_map.mp hq
      cases q with
      | nil => exact absurd rfl (h'.ne_nil hmem)
      | cons j q => simp [Path.behindFirst, List.cons_prefix_cons]
  · exact List.forall₂_map_left_iff.mpr h.replaced
  · refine List.forall₂_map_left_iff.mpr (h'.replaced.imp fun q edit hq => ?_)
    simpa only [atAll?_behindFirst] using hq
  · simp only [List.mem_append, List.mem_map, or_imp, forall_and, forall_exists_index, and_imp,
      forall_apply_eq_imp_iff₂] at hout
    cases p with
    | nil => rfl
    | cons i p =>
        cases i with
        | zero =>
            refine h.kept p fun q hq hpre => hout.1 q hq ?_
            exact List.cons_prefix_cons.mpr ⟨rfl, hpre⟩
        | succ i =>
            refine h'.kept (i :: p) fun q hq hpre => hout.2 q hq ?_
            exact behindFirst_isPrefix (q := i :: p).mpr hpre

/-- **THE NODES THAT ARE REPLACED HAVE PLACES**, and outside of these nothing changes. -/
theorem Rewrites.framed (h : Rewrites s xs ys edits) :
    ∃ places, Framed s (atAll? xs) (atAll? ys) places edits := by
  induction h with
  | nil => exact ⟨[], framed_nil⟩
  | replace hx _ ih =>
      obtain ⟨qs, hqs⟩ := ih
      exact ⟨_, (framed_here hx).cons hqs⟩
  | descend hhead _ _ ihparts ih =>
      obtain ⟨ps, hps⟩ := ihparts
      obtain ⟨qs, hqs⟩ := ih
      exact ⟨_, (hps.node hhead).cons hqs⟩

/-- A tree alone, whose places start at its root. -/
theorem Rewrites.framed_one (h : Rewrites s [e] [e'] edits) :
    ∃ places, Framed s e.at? e'.at? places edits := by
  cases h with
  | replace hx hxs =>
      cases hxs
      exact ⟨_, framed_here hx⟩
  | descend hhead hparts hxs =>
      cases hxs
      obtain ⟨ps, hps⟩ := hparts.framed
      rw [List.append_nil]
      exact ⟨ps, hps.node hhead⟩

/-- **ONE TREE FITS**: the places, their edits and the tree in front say what the other tree is. -/
theorem Framed.unique {d d' : Expr} (h : Framed s e.at? d.at? places edits)
    (h' : Framed s e.at? d'.at? places edits) : d = d' := by
  refine eq_of_heads fun p => ?_
  by_cases hout : ∀ q ∈ places, ¬ q <+: p
  · rw [h.kept p hout, h'.kept p hout]
  · obtain ⟨q, hq, more, rfl⟩ : ∃ q ∈ places, q <+: p := by simpa using hout
    obtain ⟨_, -, x, y, hx, hy, hxy⟩ := exists_partner h.replaced hq
    obtain ⟨_, -, x', y', hx', hy', hxy'⟩ := exists_partner h'.replaced hq
    obtain rfl : x = x' := Option.some.inj (hx.symm.trans hx')
    rw [at?_append, at?_append, hy, hy', hxy.spells.unique hxy'.spells]

/-- The nodes that are replaced are apart, and so are the spans of their edits. -/
theorem Framed.spans_apart (h : Framed s e.at? look' places edits) (hnested : e.Nested) :
    edits.Pairwise fun a b => a.span.Apart b.span := by
  obtain ⟨hplaces, hreplaced, -⟩ := h
  induction hreplaced with
  | nil => exact .nil
  | cons hfirst hrest ih =>
      obtain ⟨hfirst', hplaces⟩ := List.pairwise_cons.mp hplaces
      refine List.pairwise_cons.mpr ⟨fun edit' hedit' => ?_, ih hplaces⟩
      obtain ⟨q, hq, x', _, hx', -, hxy'⟩ := exists_partner hrest.flip hedit'
      obtain ⟨x, _, hx, -, hxy⟩ := hfirst
      rw [hxy.span, hxy'.span]
      exact hnested.apart hx hx' (hfirst' q hq).1 (hfirst' q hq).2 hxy.spells.isLiteral
        hxy'.spells.isLiteral

end Places

/-! ## The law -/

theorem nested_of_parse {text : String} (h : parse text = .ok e) : e.Nested := by
  unfold parse at h
  dsimp only at h
  split_ifs at h
  split at h
  · cases h
  · rename_i e' hread
    split at h
    · cases h
    · cases h
      exact Grammar.nested_of_readExpression? hread

/-- **REWRITING CHANGES EXACTLY WHAT IT RECORDS**: for a condition and the edits of its rewriting,
    there are places in the tree, none inside another, one for each edit.  At each of them stands
    what the edit spells, and everywhere else a node keeps its head.  No other tree is like that,
    and the spans of the edits do not overlap. -/
theorem rewriteWithEdits_exact {text : String} (hparse : parse text = .ok e)
    (h : rewriteWithEdits s e = .ok (e', edits)) :
    ∃ places, Framed s e.at? e'.at? places edits ∧
      (∀ d, Framed s e.at? d.at? places edits → d = e') ∧
      edits.Pairwise fun a b => a.span.Apart b.span := by
  obtain ⟨rs, hrs, hpure⟩ := bind_eq_ok.mp h
  have hrewrites := rewrites_rewriteWith e s.shadowed (references_ok_iff.mp ⟨rs, hrs⟩)
  rw [show rewriteWith s s.shadowed e = (e', edits) from Except.ok.inj hpure] at hrewrites
  obtain ⟨places, hframed⟩ := hrewrites.framed_one
  exact ⟨places, hframed, fun d hd => hd.unique hframed,
    hframed.spans_apart (nested_of_parse hparse)⟩

/-- An old value, and a field in the element of a comprehension, whose edit is made behind those of
    the iterable and of the filter. -/
theorem rewriteWithEdits_exact_comprehension : ∃ e e' edits places,
    parse "{old(n): [x + xs for x in xs if x > n]}" = .ok e ∧
      rewriteWithEdits (.memberScope ["n", "xs", "x"] []) e = .ok (e', edits) ∧
      edits.map (fun edit => (edit.span.start.col, edit.text)) =
        [(1, "__old__('n')"), (26, "self.xs"), (36, "self.n"), (14, "self.xs")] ∧
      Framed (.memberScope ["n", "xs", "x"] []) e.at? e'.at? places edits := by
  have hread : (parse "{old(n): [x + xs for x in xs if x > n]}").toOption.bind (fun e =>
      (rewriteWithEdits (.memberScope ["n", "xs", "x"] []) e).toOption.map fun t =>
        t.2.map fun edit => (edit.span.start.col, edit.text))
      = some [(1, "__old__('n')"), (26, "self.xs"), (36, "self.n"), (14, "self.xs")] := by
    rw [parse_ofList]
    decide +kernel
  obtain ⟨e, he, hread⟩ := Option.bind_eq_some_iff.mp hread
  obtain ⟨⟨e', edits⟩, hrewrite, hedits⟩ := Option.map_eq_some_iff.mp hread
  obtain ⟨places, hframed, -⟩ :=
    rewriteWithEdits_exact (toOption_eq_some.mp he) (toOption_eq_some.mp hrewrite)
  exact ⟨e, e', edits, places, toOption_eq_some.mp he, toOption_eq_some.mp hrewrite, hedits,
    hframed⟩

end Covenant.Condition
