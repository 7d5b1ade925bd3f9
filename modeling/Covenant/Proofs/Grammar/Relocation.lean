import Covenant.Proofs.Grammar.Heads
import Covenant.Proofs.Grammar.Shape
import Covenant.Proofs.Token.Walk

/-! # Relocation — what is derived is derived elsewhere

    The grammar looks at the kinds and the texts of tokens, not at their
    places.  So tokens with the same faces derive phrases of the same shapes
    (`Derives.relocate`), and a text that has been read by itself may be read
    again inside of another.

    * Each phrase has its own account of being derived up to positions
      (`Phrase.HasShape`). -/

namespace Covenant.Grammar

open Covenant.Tree Covenant.Token Reader

variable {fit : Expr → Prop} {t t' : Token} {ts us : List Token}

/-! ## Faces -/

/-- Two tokens of one kind with one text. -/
structure Alike (t' t : Token) : Prop where
  kind : t'.kind = t.kind
  text : t'.text = t.text

theorem faces_eq_nil : faces us = faces [] ↔ us = [] := List.map_eq_nil_iff

theorem faces_eq_cons : faces us = faces (t :: ts) ↔
    ∃ t' us', us = t' :: us' ∧ Alike t' t ∧ faces us' = faces ts := by
  show us.map _ = _ :: _ ↔ _
  rw [List.map_eq_cons_iff]
  constructor
  · rintro ⟨t', us', rfl, hface, hus⟩
    exact ⟨t', us', rfl, ⟨congrArg Prod.fst hface, congrArg Prod.snd hface⟩, hus⟩
  · rintro ⟨t', us', rfl, hface, hus⟩
    exact ⟨t', us', rfl, by rw [hface.kind, hface.text], hus⟩

theorem faces_eq_append {vs : List Token} : faces us = faces (ts ++ vs) ↔
    ∃ us₁ us₂, us = us₁ ++ us₂ ∧ faces us₁ = faces ts ∧ faces us₂ = faces vs := by
  rw [faces_append]
  exact List.map_eq_append_iff

namespace Alike

theorem isOp {o : String} (h : Alike t' t) (ht : isOp o t = true) : Reader.isOp o t' = true := by
  rwa [Reader.isOp, h.kind, h.text]

theorem isWord {w : String} (h : Alike t' t) (ht : isWord w t = true) :
    Reader.isWord w t' = true := by
  rwa [Reader.isWord, h.kind, h.text]

theorem isIdentifier (h : Alike t' t) (ht : isIdentifier t = true) :
    Reader.isIdentifier t' = true := by
  rwa [Reader.isIdentifier, h.kind, h.text]

theorem test {sep : Separator} (h : Alike t' t) (ht : sep.test t = true) :
    sep.test t' = true := by
  cases sep with
  | comma => exact h.isOp ht
  | word w => exact h.isWord ht

end Alike

theorem kinds_of_faces {kind : TokenKind} (h : faces us = faces ts)
    (hts : ∀ t ∈ ts, t.kind = kind) : ∀ u ∈ us, u.kind = kind := by
  intro u hu
  have hface : (u.kind, u.text) ∈ faces ts := h ▸ List.mem_map_of_mem hu
  obtain ⟨t, ht, heq⟩ := List.mem_map.mp hface
  rw [← hts t ht]
  exact (congrArg Prod.fst heq).symm

theorem texts_of_faces (h : faces us = faces ts) : us.map (·.text) = ts.map (·.text) := by
  have htexts (ts : List Token) : ts.map (·.text) = (faces ts).map Prod.snd := by
    rw [faces, List.map_map]
    rfl
  rw [htexts, htexts, h]

theorem ne_nil_of_faces (h : faces us = faces ts) (hts : ts ≠ []) : us ≠ [] := by
  rintro rfl
  exact hts (List.map_eq_nil_iff.mp h.symm)

/-! ## Phrases up to positions -/

/-- A call as it comes. -/
def anyCall : Expr → Prop := fun _ => True

/-- What it is for tokens to derive a phrase up to positions. -/
def Phrase.HasShape (us : List Token) : Phrase → Prop
  | .one k e => ∃ e', Derives anyCall us (.one k e') ∧ e'.SameShape e
  | .more sep k es => ∃ es', Derives anyCall us (.more sep k es') ∧
      es'.map Expr.unplaced = es.map Expr.unplaced
  | .several k e => ∃ e', Derives anyCall us (.several k e') ∧ e'.SameShape e
  | .chain os es => ∃ es', Derives anyCall us (.chain os es') ∧
      es'.map Expr.unplaced = es.map Expr.unplaced
  | .optional o => ∃ o', Derives anyCall us (.optional o') ∧
      o'.map Expr.unplaced = o.map Expr.unplaced
  | .step o => ∃ o', Derives anyCall us (.step o') ∧ o'.map Expr.unplaced = o.map Expr.unplaced
  | .pair p => ∃ p', Derives anyCall us (.pair p') ∧ unplacedPair p' = unplacedPair p
  | .pairs ps => ∃ ps', Derives anyCall us (.pairs ps') ∧
      ps'.map unplacedPair = ps.map unplacedPair
  | .parts gs => ∃ gs', Derives anyCall us (.parts gs') ∧
      gs'.map Generator.unplaced = gs.map Generator.unplaced
  | .argument a => ∃ a', Derives anyCall us (.argument a') ∧ a'.unplaced = a.unplaced
  | .arguments as => ∃ as', Derives anyCall us (.arguments as') ∧
      as'.map Argument.unplaced = as.map Argument.unplaced
  | .given as => ∃ as', Derives anyCall us (.given as') ∧
      as'.map Argument.unplaced = as.map Argument.unplaced
  | .entry p => ∃ p', Derives anyCall us (.entry p') ∧ p'.unplaced = p.unplaced
  | .entries ps => ∃ ps', Derives anyCall us (.entries ps') ∧
      ps'.map Entry.unplaced = ps.map Entry.unplaced
  | .parameters ps => ∃ ps', Derives anyCall us (.parameters ps') ∧
      ps'.map Entry.unplaced = ps.map Entry.unplaced

theorem map_ne_nil {α β : Type} {f : α → β} {as bs : List α} (h : bs.map f = as.map f)
    (has : as ≠ []) : bs ≠ [] := by
  rintro rfl
  exact has (List.map_eq_nil_iff.mp h.symm)

/-! ## Parts without trees -/

theorem Trail.relocate (h : Trail ts) (hus : faces us = faces ts) : Trail us := by
  cases h with
  | none =>
      obtain rfl := faces_eq_nil.1 hus
      exact .none
  | comma ht =>
      simp only [faces_eq_cons, faces_eq_nil] at hus
      obtain ⟨t', _, rfl, ht', rfl⟩ := hus
      exact .comma (ht'.isOp ht)

theorem Leads.relocate {isAsync : Bool} (h : Leads ts isAsync) (hus : faces us = faces ts) :
    Leads us isAsync := by
  cases h with
  | none =>
      obtain rfl := faces_eq_nil.1 hus
      exact .none
  | async ht =>
      simp only [faces_eq_cons, faces_eq_nil] at hus
      obtain ⟨t', _, rfl, ht', rfl⟩ := hus
      exact .async (ht'.isWord ht)

theorem Compares.relocate {o : CmpOp} (h : Compares ts o) (hus : faces us = faces ts) :
    Compares us o := by
  cases h with
  | sign hkind ho =>
      simp only [faces_eq_cons, faces_eq_nil] at hus
      obtain ⟨t', _, rfl, ht', rfl⟩ := hus
      exact .sign (ht'.kind.trans hkind) (ht'.text ▸ ho)
  | member ht =>
      simp only [faces_eq_cons, faces_eq_nil] at hus
      obtain ⟨t', _, rfl, ht', rfl⟩ := hus
      exact .member (ht'.isWord ht)
  | is ht =>
      simp only [faces_eq_cons, faces_eq_nil] at hus
      obtain ⟨t', _, rfl, ht', rfl⟩ := hus
      exact .is (ht'.isWord ht)
  | isNot ht hu =>
      simp only [faces_eq_cons, faces_eq_nil] at hus
      obtain ⟨t', _, rfl, ht', u', _, rfl, hu', rfl⟩ := hus
      exact .isNot (ht'.isWord ht) (hu'.isWord hu)
  | notMember ht hu =>
      simp only [faces_eq_cons, faces_eq_nil] at hus
      obtain ⟨t', _, rfl, ht', u', _, rfl, hu', rfl⟩ := hus
      exact .notMember (ht'.isWord ht) (hu'.isWord hu)

/-! ## Relocation -/

/-- **ELSEWHERE**: tokens with the faces of others derive what these derive, up to positions. -/
theorem Derives.relocate {x : Phrase} (h : Derives fit ts x) :
    ∀ {us}, faces us = faces ts → x.HasShape us := by
  -- every rule is applied to the tokens that have its faces, part by part
  induction h with
  | name ht =>
      intro us hus
      simp only [faces_eq_cons, faces_eq_nil] at hus
      obtain ⟨t', _, rfl, ht', rfl⟩ := hus
      refine ⟨_, .name (ht'.isIdentifier ht), ?_⟩
      show Expr.name _ _ _ = Expr.name _ _ _
      rw [ht'.text]
  | word span hkind hword =>
      intro us hus
      simp only [faces_eq_cons, faces_eq_nil] at hus
      obtain ⟨t', _, rfl, ht', rfl⟩ := hus
      exact ⟨_, .word span (ht'.kind.trans hkind) (ht'.text ▸ hword), rfl⟩
  | number span hkind hnumber =>
      intro us hus
      simp only [faces_eq_cons, faces_eq_nil] at hus
      obtain ⟨t', _, rfl, ht', rfl⟩ := hus
      exact ⟨_, .number span (ht'.kind.trans hkind) (ht'.text ▸ hnumber), rfl⟩
  | string span hne hall hread =>
      intro us hus
      refine ⟨_, .string span (ne_nil_of_faces hus hne) (kinds_of_faces hus hall) ?_, rfl⟩
      intro read vs hvs
      exact hread read vs (hvs.trans (texts_of_faces hus))
  | ellipsis span ht =>
      intro us hus
      simp only [faces_eq_cons, faces_eq_nil] at hus
      obtain ⟨t', _, rfl, ht', rfl⟩ := hus
      exact ⟨_, .ellipsis span (ht'.isOp ht), rfl⟩
  | group ht _ hu ih =>
      intro us hus
      simp only [faces_eq_cons, faces_eq_append, faces_eq_nil] at hus
      obtain ⟨t', _, rfl, ht', ts', _, rfl, hts, u', _, rfl, hu', rfl⟩ := hus
      obtain ⟨e', he, hshape⟩ := ih hts
      exact ⟨e', .group (ht'.isOp ht) he (hu'.isOp hu), hshape⟩
  | empty d span hd ht hu =>
      intro us hus
      simp only [faces_eq_cons, faces_eq_nil] at hus
      obtain ⟨t', _, rfl, ht', u', _, rfl, hu', rfl⟩ := hus
      exact ⟨_, .empty d span hd (ht'.isOp ht) (hu'.isOp hu), rfl⟩
  | display d span ht _ _ hvs htuple hu ih ihMore =>
      intro us hus
      simp only [faces_eq_cons, faces_eq_append, faces_eq_nil] at hus
      obtain ⟨t', _, rfl, ht', ts', _, rfl, hts, us', _, rfl, hus, vs', _, rfl, hvs', u', _, rfl,
        hu', rfl⟩ := hus
      obtain ⟨e', he, hshape⟩ := ih hts
      obtain ⟨es', hes, hshapes⟩ := ihMore hus
      have htuple' : d = .tuple → es' ≠ [] ∨ vs' ≠ [] := fun hd =>
        (htuple hd).imp (map_ne_nil hshapes) (ne_nil_of_faces hvs')
      exact ⟨_, .display d span (ht'.isOp ht) he hes (hvs.relocate hvs') htuple' (hu'.isOp hu),
        sameShape_compound (map_cons_congr hshape hshapes)⟩
  | comprehension d span ht _ _ hgs hu ih ihParts =>
      intro us hus
      simp only [faces_eq_cons, faces_eq_append, faces_eq_nil] at hus
      obtain ⟨t', _, rfl, ht', ts', _, rfl, hts, us', _, rfl, hus, u', _, rfl, hu', rfl⟩ := hus
      obtain ⟨e', he, hshape⟩ := ih hts
      obtain ⟨gs', hgs', hshapes⟩ := ihParts hus
      exact ⟨_, .comprehension d span (ht'.isOp ht) he hgs' (map_ne_nil hshapes hgs) (hu'.isOp hu),
        sameShape_comprehension (map_cons_congr hshape rfl) hshapes⟩
  | emptyMapping span ht hu =>
      intro us hus
      simp only [faces_eq_cons, faces_eq_nil] at hus
      obtain ⟨t', _, rfl, ht', u', _, rfl, hu', rfl⟩ := hus
      exact ⟨_, .emptyMapping span (ht'.isOp ht) (hu'.isOp hu), rfl⟩
  | mapping span ht _ _ hvs hu ih ihMore =>
      intro us hus
      simp only [faces_eq_cons, faces_eq_append, faces_eq_nil] at hus
      obtain ⟨t', _, rfl, ht', ts', _, rfl, hts, us', _, rfl, hus, vs', _, rfl, hvs', u', _, rfl,
        hu', rfl⟩ := hus
      obtain ⟨p', hp, hshape⟩ := ih hts
      obtain ⟨ps', hps, hshapes⟩ := ihMore hus
      exact ⟨_, .mapping span (ht'.isOp ht) hp hps (hvs.relocate hvs') (hu'.isOp hu),
        sameShape_mappingOf (map_cons_congr hshape hshapes)⟩
  | mappingComprehension span ht _ _ hgs hu ih ihParts =>
      intro us hus
      simp only [faces_eq_cons, faces_eq_append, faces_eq_nil] at hus
      obtain ⟨t', _, rfl, ht', ts', _, rfl, hts, us', _, rfl, hus, u', _, rfl, hu', rfl⟩ := hus
      obtain ⟨⟨key, v'⟩, hp, hshape⟩ := ih hts
      obtain ⟨hkey, hv⟩ := Prod.mk.inj hshape
      obtain ⟨k', rfl, hk⟩ := Option.map_eq_some_iff.mp hkey
      obtain ⟨gs', hgs', hshapes⟩ := ihParts hus
      exact ⟨_, .mappingComprehension span (ht'.isOp ht) hp hgs' (map_ne_nil hshapes hgs)
        (hu'.isOp hu),
        sameShape_comprehension (map_cons_congr hk (map_cons_congr hv rfl)) hshapes⟩
  | field span _ ht hu ih =>
      intro us hus
      simp only [faces_eq_cons, faces_eq_append, faces_eq_nil] at hus
      obtain ⟨ts', _, rfl, hts, t', _, rfl, ht', u', _, rfl, hu', rfl⟩ := hus
      obtain ⟨e', he, hshape⟩ := ih hts
      refine ⟨_, .field span he (ht'.isOp ht) (hu'.isIdentifier hu), ?_⟩
      rw [hu'.text]
      exact sameShape_field hshape
  | call _ ht _ hu he _ ih ihGiven =>
      intro us hus
      simp only [faces_eq_cons, faces_eq_append, faces_eq_nil] at hus
      obtain ⟨ts', _, rfl, hts, t', _, rfl, ht', us', _, rfl, hus, u', _, rfl, hu', rfl⟩ := hus
      obtain ⟨f', hf, hshape⟩ := ih hts
      obtain ⟨as', has, hshapes⟩ := ihGiven hus
      refine ⟨_, .call hf (ht'.isOp ht) has (hu'.isOp hu) rfl trivial, ?_⟩
      rw [he]
      exact sameShape_call hshape (positional?_congr hshapes) (keyword?_congr hshapes)
  | callComprehension span _ ht _ _ hgs hu he _ ih ihElement ihParts =>
      intro us hus
      simp only [faces_eq_cons, faces_eq_append, faces_eq_nil] at hus
      obtain ⟨ts', _, rfl, hts, t', _, rfl, ht', us', _, rfl, hus, vs', _, rfl, hvs, u', _, rfl, hu',
        rfl⟩ := hus
      obtain ⟨f', hf, hshape⟩ := ih hts
      obtain ⟨g', hg, helement⟩ := ihElement hus
      obtain ⟨gs', hgs', hshapes⟩ := ihParts hvs
      refine ⟨_, .callComprehension span hf (ht'.isOp ht) hg hgs' (map_ne_nil hshapes hgs)
        (hu'.isOp hu) rfl trivial, ?_⟩
      rw [he]
      exact sameShape_call hshape
        (map_cons_congr (sameShape_comprehension (map_cons_congr helement rfl) hshapes) rfl) rfl
  | subscript span _ ht _ hu ih ihIndex =>
      intro us hus
      simp only [faces_eq_cons, faces_eq_append, faces_eq_nil] at hus
      obtain ⟨ts', _, rfl, hts, t', _, rfl, ht', us', _, rfl, hus, u', _, rfl, hu', rfl⟩ := hus
      obtain ⟨e', he, hshape⟩ := ih hts
      obtain ⟨i', hi, hindex⟩ := ihIndex hus
      exact ⟨_, .subscript span he (ht'.isOp ht) hi (hu'.isOp hu),
        sameShape_compound (map_cons_congr hshape (map_cons_congr hindex rfl))⟩
  | outer _ ih =>
      intro us hus
      obtain ⟨e', he, hshape⟩ := ih hus
      exact ⟨e', .outer he, hshape⟩
  | power span _ ht _ iha ihb =>
      intro us hus
      simp only [faces_eq_cons, faces_eq_append] at hus
      obtain ⟨ts', _, rfl, hts, t', us', rfl, ht', hus⟩ := hus
      obtain ⟨a', ha, hshape⟩ := iha hts
      obtain ⟨b', hb, hshape'⟩ := ihb hus
      exact ⟨_, .power span ha (ht'.isOp ht) hb,
        sameShape_compound (map_cons_congr hshape (map_cons_congr hshape' rfl))⟩
  | sign span hkind ho _ ih =>
      intro us hus
      obtain ⟨t', us', rfl, ht', hus⟩ := faces_eq_cons.1 hus
      obtain ⟨e', he, hshape⟩ := ih hus
      exact ⟨_, .sign span (ht'.kind.trans hkind) (ht'.text ▸ ho) he,
        sameShape_compound (map_cons_congr hshape rfl)⟩
  | binary span _ hkind ho _ iha ihb =>
      intro us hus
      simp only [faces_eq_cons, faces_eq_append] at hus
      obtain ⟨ts', _, rfl, hts, t', us', rfl, ht', hus⟩ := hus
      obtain ⟨a', ha, hshape⟩ := iha hts
      obtain ⟨b', hb, hshape'⟩ := ihb hus
      exact ⟨_, .binary span ha (ht'.kind.trans hkind) (ht'.text ▸ ho) hb,
        sameShape_compound (map_cons_congr hshape (map_cons_congr hshape' rfl))⟩
  | compare span _ _ hos ih ihChain =>
      intro us hus
      obtain ⟨ts', us', rfl, hts, hus⟩ := faces_eq_append.1 hus
      obtain ⟨e', he, hshape⟩ := ih hts
      obtain ⟨es', hes, hshapes⟩ := ihChain hus
      exact ⟨_, .compare span he hes hos, sameShape_compound (map_cons_congr hshape hshapes)⟩
  | negation span ht _ ih =>
      intro us hus
      obtain ⟨t', us', rfl, ht', hus⟩ := faces_eq_cons.1 hus
      obtain ⟨e', he, hshape⟩ := ih hus
      exact ⟨_, .negation span (ht'.isWord ht) he, sameShape_compound (map_cons_congr hshape rfl)⟩
  | connected span ho _ _ hes ih ihMore =>
      intro us hus
      obtain ⟨ts', us', rfl, hts, hus⟩ := faces_eq_append.1 hus
      obtain ⟨e', he, hshape⟩ := ih hts
      obtain ⟨es', hes', hshapes⟩ := ihMore hus
      exact ⟨_, .connected span ho he hes' (map_ne_nil hshapes hes),
        sameShape_compound (map_cons_congr hshape hshapes)⟩
  | conditional span _ ht _ hu _ iha ihb ihc =>
      intro us hus
      simp only [faces_eq_cons, faces_eq_append] at hus
      obtain ⟨ts', _, rfl, hts, t', _, rfl, ht', us', _, rfl, hus, u', vs', rfl, hu', hvs⟩ := hus
      obtain ⟨a', ha, hshape⟩ := iha hts
      obtain ⟨b', hb, htest⟩ := ihb hus
      obtain ⟨c', hc, hother⟩ := ihc hvs
      exact ⟨_, .conditional span ha (ht'.isWord ht) hb (hu'.isWord hu) hc,
        sameShape_compound (map_cons_congr htest (map_cons_congr hshape
          (map_cons_congr hother rfl)))⟩
  | lambda span ht _ henter hneeds hu _ ihParameters ih =>
      intro us hus
      simp only [faces_eq_cons, faces_eq_append] at hus
      obtain ⟨t', _, rfl, ht', ts', _, rfl, hts, u', us', rfl, hu', hus⟩ := hus
      obtain ⟨ps', hps, hshapes⟩ := ihParameters hts
      obtain ⟨e', he, hshape⟩ := ih hus
      obtain ⟨list', henter', hlist⟩ := enterAll_congr henter rfl hshapes
      have hneeds' : list'.needsNamed = false :=
        (congrArg ParameterList.needsNamed hlist).trans hneeds
      exact ⟨_, .lambda span (ht'.isWord ht) hps henter' hneeds' (hu'.isOp hu) he,
        sameShape_lambda hlist hshape⟩
  | plain _ ih =>
      intro us hus
      obtain ⟨e', he, hshape⟩ := ih hus
      exact ⟨e', .plain he, hshape⟩
  | starred span hk ht _ ih =>
      intro us hus
      obtain ⟨t', us', rfl, ht', hus⟩ := faces_eq_cons.1 hus
      obtain ⟨e', he, hshape⟩ := ih hus
      exact ⟨_, .starred span hk (ht'.isOp ht) he, sameShape_compound (map_cons_congr hshape rfl)⟩
  | slice span _ ht _ _ iha ihb ihc =>
      intro us hus
      simp only [faces_eq_cons, faces_eq_append] at hus
      obtain ⟨ts', _, rfl, hts, t', _, rfl, ht', us', vs', rfl, hus, hvs⟩ := hus
      obtain ⟨a', ha, hlower⟩ := iha hts
      obtain ⟨b', hb, hupper⟩ := ihb hus
      obtain ⟨c', hc, hstep⟩ := ihc hvs
      exact ⟨_, .slice span ha (ht'.isOp ht) hb hc, sameShape_slice hlower hupper hstep⟩
  | absent =>
      intro us hus
      obtain rfl := faces_eq_nil.1 hus
      exact ⟨none, .absent, rfl⟩
  | present _ ih =>
      intro us hus
      obtain ⟨e', he, hshape⟩ := ih hus
      exact ⟨some e', .present he, congrArg some hshape⟩
  | noStep =>
      intro us hus
      obtain rfl := faces_eq_nil.1 hus
      exact ⟨none, .noStep, rfl⟩
  | step ht _ ih =>
      intro us hus
      obtain ⟨t', us', rfl, ht', hus⟩ := faces_eq_cons.1 hus
      obtain ⟨o', ho, hshape⟩ := ih hus
      exact ⟨o', .step (ht'.isOp ht) ho, hshape⟩
  | noMore =>
      intro us hus
      obtain rfl := faces_eq_nil.1 hus
      exact ⟨[], .noMore, rfl⟩
  | more ht _ _ ih ihMore =>
      intro us hus
      simp only [faces_eq_cons, faces_eq_append] at hus
      obtain ⟨t', _, rfl, ht', ts', us', rfl, hts, hus⟩ := hus
      obtain ⟨e', he, hshape⟩ := ih hts
      obtain ⟨es', hes, hshapes⟩ := ihMore hus
      exact ⟨e' :: es', .more (ht'.test ht) he hes, map_cons_congr hshape hshapes⟩
  | single _ hindex ih =>
      intro us hus
      obtain ⟨e', he, hshape⟩ := ih hus
      exact ⟨e', .single he fun hk => (isStarred_congr hshape).trans (hindex hk), hshape⟩
  | several span _ _ hvs htuple ih ihMore =>
      intro us hus
      simp only [faces_eq_append] at hus
      obtain ⟨ts', _, rfl, hts, us', vs', rfl, hus, hvs'⟩ := hus
      obtain ⟨e', he, hshape⟩ := ih hts
      obtain ⟨es', hes, hshapes⟩ := ihMore hus
      refine ⟨_, .several span he hes (hvs.relocate hvs') ?_,
        sameShape_compound (map_cons_congr hshape hshapes)⟩
      exact htuple.imp (map_ne_nil hshapes) (.imp (ne_nil_of_faces hvs')
        (.imp_right (isStarred_congr hshape).trans))
  | noChain =>
      intro us hus
      obtain rfl := faces_eq_nil.1 hus
      exact ⟨[], .noChain, rfl⟩
  | chain ho _ _ ih ihChain =>
      intro us hus
      simp only [faces_eq_append] at hus
      obtain ⟨ts', _, rfl, hts, us', vs', rfl, hus, hvs⟩ := hus
      obtain ⟨e', he, hshape⟩ := ih hus
      obtain ⟨es', hes, hshapes⟩ := ihChain hvs
      exact ⟨e' :: es', .chain (ho.relocate hts) he hes, map_cons_congr hshape hshapes⟩
  | pair _ ht _ ihk ih =>
      intro us hus
      simp only [faces_eq_cons, faces_eq_append] at hus
      obtain ⟨ts', _, rfl, hts, t', us', rfl, ht', hus⟩ := hus
      obtain ⟨k', hk, hkey⟩ := ihk hts
      obtain ⟨v', hv, hvalue⟩ := ih hus
      exact ⟨(some k', v'), .pair hk (ht'.isOp ht) hv, Prod.ext (congrArg some hkey) hvalue⟩
  | unpackedPair ht _ ih =>
      intro us hus
      obtain ⟨t', us', rfl, ht', hus⟩ := faces_eq_cons.1 hus
      obtain ⟨v', hv, hvalue⟩ := ih hus
      exact ⟨(none, v'), .unpackedPair (ht'.isOp ht) hv, Prod.ext rfl hvalue⟩
  | noPairs =>
      intro us hus
      obtain rfl := faces_eq_nil.1 hus
      exact ⟨[], .noPairs, rfl⟩
  | pairs ht _ _ ih ihMore =>
      intro us hus
      simp only [faces_eq_cons, faces_eq_append] at hus
      obtain ⟨t', _, rfl, ht', ts', us', rfl, hts, hus⟩ := hus
      obtain ⟨p', hp, hshape⟩ := ih hts
      obtain ⟨ps', hps, hshapes⟩ := ihMore hus
      exact ⟨p' :: ps', .pairs (ht'.isOp ht) hp hps, map_cons_congr hshape hshapes⟩
  | noParts =>
      intro us hus
      obtain rfl := faces_eq_nil.1 hus
      exact ⟨[], .noParts, rfl⟩
  | part hlead ht _ htarget hu _ _ _ ihTargets ihIter ihFilters ihParts =>
      intro us hus
      simp only [faces_eq_cons, faces_eq_append] at hus
      obtain ⟨as', _, rfl, has, t', _, rfl, ht', ts', _, rfl, hts, u', _, rfl, hu', us', _, rfl,
        hus, vs', ws', rfl, hvs, hws⟩ := hus
      obtain ⟨e', he, hshape⟩ := ihTargets hts
      obtain ⟨target', htarget', hbound⟩ := asTarget_congr htarget hshape
      obtain ⟨i', hi, hiter⟩ := ihIter hus
      obtain ⟨fs', hfs, hfilters⟩ := ihFilters hvs
      obtain ⟨gs', hgs, hshapes⟩ := ihParts hws
      refine ⟨_, .part (hlead.relocate has) (ht'.isWord ht) he htarget' (hu'.isWord hu) hi hfs hgs,
        map_cons_congr ?_ hshapes⟩
      show Generator.mk _ _ _ _ = Generator.mk _ _ _ _
      rw [show target'.unplaced = _ from hbound, show i'.unplaced = _ from hiter, hfilters]
  | argument _ ih =>
      intro us hus
      obtain ⟨e', he, hshape⟩ := ih hus
      exact ⟨_, .argument he, congrArg Argument.positional hshape⟩
  | starArgument span ht _ ih =>
      intro us hus
      obtain ⟨t', us', rfl, ht', hus⟩ := faces_eq_cons.1 hus
      obtain ⟨e', he, hshape⟩ := ih hus
      exact ⟨_, .starArgument span (ht'.isOp ht) he, congrArg (Argument.star nowhere) hshape⟩
  | namedArgument span ht hu _ ih =>
      intro us hus
      simp only [faces_eq_cons] at hus
      obtain ⟨t', _, rfl, ht', u', us', rfl, hu', hus⟩ := hus
      obtain ⟨e', he, hshape⟩ := ih hus
      refine ⟨_, .namedArgument span (ht'.isIdentifier ht) (hu'.isOp hu) he, ?_⟩
      rw [ht'.text]
      exact congrArg (Argument.named nowhere _) hshape
  | unpackedArgument span ht _ ih =>
      intro us hus
      obtain ⟨t', us', rfl, ht', hus⟩ := faces_eq_cons.1 hus
      obtain ⟨e', he, hshape⟩ := ih hus
      exact ⟨_, .unpackedArgument span (ht'.isOp ht) he,
        congrArg (Argument.unpacked nowhere) hshape⟩
  | noArguments =>
      intro us hus
      obtain rfl := faces_eq_nil.1 hus
      exact ⟨[], .noArguments, rfl⟩
  | arguments ht _ _ ih ihMore =>
      intro us hus
      simp only [faces_eq_cons, faces_eq_append] at hus
      obtain ⟨t', _, rfl, ht', ts', us', rfl, hts, hus⟩ := hus
      obtain ⟨a', ha, hshape⟩ := ih hts
      obtain ⟨as', has, hshapes⟩ := ihMore hus
      exact ⟨a' :: as', .arguments (ht'.isOp ht) ha has, map_cons_congr hshape hshapes⟩
  | nothingGiven =>
      intro us hus
      obtain rfl := faces_eq_nil.1 hus
      exact ⟨[], .nothingGiven, rfl⟩
  | given _ _ hvs horder ih ihMore =>
      intro us hus
      simp only [faces_eq_append] at hus
      obtain ⟨ts', _, rfl, hts, us', vs', rfl, hus, hvs'⟩ := hus
      obtain ⟨a', ha, hshape⟩ := ih hts
      obtain ⟨as', has, hshapes⟩ := ihMore hus
      have hgiven := map_cons_congr hshape hshapes
      exact ⟨a' :: as', .given ha has (hvs.relocate hvs') (inOrder_congr hgiven horder), hgiven⟩
  | slash ht =>
      intro us hus
      simp only [faces_eq_cons, faces_eq_nil] at hus
      obtain ⟨t', _, rfl, ht', rfl⟩ := hus
      exact ⟨_, .slash (ht'.isOp ht), rfl⟩
  | loneStar ht =>
      intro us hus
      simp only [faces_eq_cons, faces_eq_nil] at hus
      obtain ⟨t', _, rfl, ht', rfl⟩ := hus
      exact ⟨_, .loneStar (ht'.isOp ht), rfl⟩
  | star ht hu =>
      intro us hus
      simp only [faces_eq_cons, faces_eq_nil] at hus
      obtain ⟨t', _, rfl, ht', u', _, rfl, hu', rfl⟩ := hus
      refine ⟨_, .star (ht'.isOp ht) (hu'.isIdentifier hu), ?_⟩
      rw [hu'.text]
      rfl
  | doubleStar ht hu =>
      intro us hus
      simp only [faces_eq_cons, faces_eq_nil] at hus
      obtain ⟨t', _, rfl, ht', u', _, rfl, hu', rfl⟩ := hus
      refine ⟨_, .doubleStar (ht'.isOp ht) (hu'.isIdentifier hu), ?_⟩
      rw [hu'.text]
      rfl
  | parameter ht =>
      intro us hus
      simp only [faces_eq_cons, faces_eq_nil] at hus
      obtain ⟨t', _, rfl, ht', rfl⟩ := hus
      refine ⟨_, .parameter (ht'.isIdentifier ht), ?_⟩
      rw [ht'.text]
      rfl
  | parameterDefault ht hu _ ih =>
      intro us hus
      simp only [faces_eq_cons] at hus
      obtain ⟨t', _, rfl, ht', u', us', rfl, hu', hus⟩ := hus
      obtain ⟨e', he, hshape⟩ := ih hus
      refine ⟨_, .parameterDefault (ht'.isIdentifier ht) (hu'.isOp hu) he, ?_⟩
      rw [ht'.text]
      show Entry.plain _ (some e'.unplaced) = Entry.plain _ _
      rw [show e'.unplaced = _ from hshape]
      rfl
  | noEntries =>
      intro us hus
      obtain rfl := faces_eq_nil.1 hus
      exact ⟨[], .noEntries, rfl⟩
  | entries ht _ _ ih ihMore =>
      intro us hus
      simp only [faces_eq_cons, faces_eq_append] at hus
      obtain ⟨t', _, rfl, ht', ts', us', rfl, hts, hus⟩ := hus
      obtain ⟨p', hp, hshape⟩ := ih hts
      obtain ⟨ps', hps, hshapes⟩ := ihMore hus
      exact ⟨p' :: ps', .entries (ht'.isOp ht) hp hps, map_cons_congr hshape hshapes⟩
  | noParameters =>
      intro us hus
      obtain rfl := faces_eq_nil.1 hus
      exact ⟨[], .noParameters, rfl⟩
  | parameters _ _ hvs ih ihMore =>
      intro us hus
      simp only [faces_eq_append] at hus
      obtain ⟨ts', _, rfl, hts, us', vs', rfl, hus, hvs'⟩ := hus
      obtain ⟨p', hp, hshape⟩ := ih hts
      obtain ⟨ps', hps, hshapes⟩ := ihMore hus
      exact ⟨p' :: ps', .parameters hp hps (hvs.relocate hvs'), map_cons_congr hshape hshapes⟩

end Covenant.Grammar
