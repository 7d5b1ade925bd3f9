import Covenant.Proofs.Grammar.Completeness.Lambdas

/-! # Completeness — what is derived is read

    If the grammar derives a tree from tokens and what follows them ends the
    tree, then the readers take exactly these tokens and give a tree of the
    same shape.

    * Nothing is asked of the places of the tokens, and a level for every token
      is enough.
    * Each phrase has its own account of being read (`Phrase.IsRead`); every
      derived phrase is read, by induction on its derivation
      (`Derives.isRead`). -/

namespace Covenant.Grammar

open Covenant.Tree Reader

variable {fit : Expr → Prop} {ts rest : List Token} {e : Expr} {n : Nat}

/-- What it is for a phrase to be read from tokens. -/
def Phrase.IsRead (fit : Expr → Prop) (ts : List Token) : Phrase → Prop
  | .one k e => CompleteOne ts k e
  | .more sep k es => CompleteMore ts sep k es
  | .several k e => CompleteSeveral ts k e
  | .chain os es => CompleteChain ts os es
  | .optional o => CompleteOptional ts o
  | .step o => CompleteStep ts o
  | .pair p => CompletePair fit ts p
  | .pairs ps => CompletePairs ts ps
  | .parts gs => CompleteParts ts gs
  | .argument a => CompleteArgument ts a
  | .arguments as => CompleteArguments ts as
  | .given as => CompleteGiven ts as
  | .entry p => CompleteEntry ts p
  | .entries ps => CompleteEntries ts ps
  | .parameters ps => CompleteParameters ts ps

/-- **WHAT IS DERIVED IS READ.** -/
theorem Derives.isRead {x : Phrase} (h : Derives fit ts x) : x.IsRead fit ts := by
  induction h with
  | name ht => exact complete_name ht
  | word _ hkind hword => exact complete_word hkind hword
  | number _ hkind hnumber => exact complete_number hkind hnumber
  | string _ hne hall hread => exact complete_string hne hall hread
  | ellipsis _ ht => exact complete_ellipsis ht
  | group ht hts hu ih => exact complete_group ht hts hu ih
  | empty d _ hd ht hu => exact complete_empty hd ht hu
  | display d _ ht hts hus hvs htuple hu ih ihMore =>
      exact complete_display ht hts hus hvs htuple hu ih ihMore
  | comprehension d _ ht hts hus hgs hu ih ihParts =>
      exact complete_comprehension ht hts hus hgs hu ih ihParts
  | emptyMapping _ ht hu => exact complete_emptyMapping ht hu
  | mapping _ ht _ hus hvs hu ih ihMore => exact complete_mapping ht hus hvs hu ih ihMore
  | mappingComprehension _ ht _ hus hgs hu ih ihParts =>
      exact complete_mappingComprehension ht hus hgs hu ih ihParts
  | field _ hts ht hu ih =>
      exact completeOne_of_looped (by simp) rfl (looped_field (ih.looped rfl rfl) hts.ne_nil ht hu)
  | call hts ht _ hu he _ ih ihGiven =>
      exact completeOne_of_looped (by simp) rfl
        (looped_call (ih.looped rfl rfl) hts.ne_nil ht ihGiven hu he)
  | callComprehension _ hts ht hus hvs hgs hu he _ ih ihElement ihParts =>
      exact completeOne_of_looped (by simp) rfl (looped_callComprehension (ih.looped rfl rfl)
        hts.ne_nil ht hus hvs hgs hu ihElement ihParts he)
  | subscript _ hts ht _ hu ih ihIndex =>
      exact completeOne_of_looped (by simp) rfl
        (looped_subscript (ih.looped rfl rfl) hts.ne_nil ht ihIndex hu)
  | outer hts ih => exact complete_outer hts ih
  | power _ hts ht _ iha ihb => exact complete_power hts ht iha ihb
  | sign _ hkind ho _ ih => exact complete_sign hkind ho ih
  | @binary t ts us a b r o _ hts hkind ho _ iha ihb =>
      have hloops : r.outer.loops = true := by
        cases r with
        | factor | term | sum | shift | bitAnd | bitXor => rfl
        | atom | primary | power | bitOr | comparison | inversion | conjunction | disjunction
        | expression => exact (Option.some_ne_none _ ho.symm).elim
      exact completeOne_of_looped (by simp) hloops
        (looped_binary (iha.looped rfl hloops) hts.ne_nil hkind ho ihb)
  | compare _ hts hus hos ih ihChain => exact complete_compare hts hus hos ih ihChain
  | negation _ ht _ ih => exact complete_negation ht ih
  | connected _ ho hts hus hes ih ihMore => exact complete_connected ho hts hus hes ih ihMore
  | conditional _ hts ht _ hu _ iha ihb ihc => exact complete_conditional hts ht hu iha ihb ihc
  | lambda _ ht _ henter hneeds hu _ ihParameters ih =>
      exact complete_lambda ht henter hneeds hu ihParameters ih
  | plain hts ih => exact complete_plain hts ih
  | starred _ hk ht _ ih => exact complete_starred hk ht ih
  | slice _ hts ht _ hvs iha ihb ihc => exact complete_slice hts ht hvs iha ihb ihc
  | absent => exact .inl ⟨rfl, rfl⟩
  | present _ ih => exact .inr ⟨_, rfl, ih⟩
  | noStep => exact .inl ⟨rfl, rfl⟩
  | step ht _ ih => exact .inr ⟨_, _, rfl, ht, ih⟩
  | noMore => exact completeMore_nil
  | more ht _ hus ih ihMore => exact completeMore_cons ht hus ih ihMore
  | single _ hindex ih => exact complete_single ih hindex
  | several _ _ hus hvs htuple ih ihMore => exact complete_several hus ih ihMore hvs htuple
  | noChain => exact completeChain_nil
  | chain hts hus hvs ih ihChain => exact completeChain_cons hts hus hvs ih ihChain
  | pair hts ht _ ihk ih => exact completePair_keyed hts ht ihk ih
  | unpackedPair ht _ ih => exact completePair_unpacked ht ih
  | noPairs => exact completePairs_nil
  | pairs ht _ hus ih ihMore => exact completePairs_cons ht hus ih ihMore
  | noParts => exact completeParts_nil
  | part hlead ht _ htarget hu _ hvs hws ihTargets ihIter ihFilters ihParts =>
      exact completeParts_cons hlead ht htarget hu hvs hws ihTargets ihIter ihFilters ihParts
  | argument hts ih => exact complete_positional hts ih
  | starArgument _ ht _ ih => exact complete_starArgument ht ih
  | namedArgument _ ht hu _ ih => exact complete_namedArgument ht hu ih
  | unpackedArgument _ ht _ ih => exact complete_unpackedArgument ht ih
  | noArguments => exact completeArguments_nil
  | arguments ht _ hus ih ihMore => exact completeArguments_cons ht hus ih ihMore
  | nothingGiven => exact complete_nothingGiven
  | given hts hus hvs horder ih ihMore => exact complete_given hts hus hvs horder ih ihMore
  | slash ht => exact complete_slash ht
  | loneStar ht => exact complete_loneStar ht
  | star ht hu => exact complete_starEntry ht hu
  | doubleStar ht hu => exact complete_doubleStar ht hu
  | parameter ht => exact complete_parameter ht
  | parameterDefault ht hu _ ih => exact complete_parameterDefault ht hu ih
  | noEntries => exact completeEntries_nil
  | entries ht _ hus ih ihMore => exact completeEntries_cons ht hus ih ihMore
  | noParameters => exact complete_noParameters
  | parameters hts hus hvs ih ihMore => exact complete_parameters hts hus hvs ih ihMore

/-- **EXPRESSIONS ARE READ** as they are derived, up to layout. -/
theorem expressions_of_derives (h : Derives fit ts (.several (.rule .expression) e))
    (hn : ts.length ≤ n) (hrest : Next (fun t => isLayout t = true) rest) (stop : Pos) :
    ∃ e' stop', expressions (level (n + 1)) ⟨ts ++ rest, stop⟩ = some (e', ⟨rest, stop'⟩) ∧
      e'.SameShape e := by
  have hends : Next (fun t => (Kind.rule .expression).stops t = true ∧ closes t = true) rest :=
    hrest.mono fun t ht => ⟨stops_of_isLayout ht, closes_of_isLayout ht⟩
  obtain ⟨es, b, stop', hlist, hlisted⟩ :=
    (show CompleteSeveral ts (.rule .expression) e from h.isRead) hn hends stop
  obtain ⟨e', htuple, hshape⟩ := tupleUnlessSingle_of_listed
    (by decide) hlisted
  refine ⟨e', stop', ?_, hshape⟩
  rw [expressions, bind_of_eq (here_of_next (.append (fun _ _ => trivial)
    (hrest.mono fun _ _ => trivial)))]
  exact (bind_of_eq hlist).trans htuple

/-- **ONE SHAPE**: tokens derive expressions of one shape only. -/
theorem Derives.unique {fit' : Expr → Prop} {e₂ : Expr}
    (h : Derives fit ts (.several (.rule .expression) e))
    (h₂ : Derives fit' ts (.several (.rule .expression) e₂)) : e.SameShape e₂ := by
  have hend : Next (fun t => isLayout t = true) [Token.layoutToken .stop default] := .cons rfl
  obtain ⟨e', stop, hread, hshape⟩ :=
    expressions_of_derives h (Nat.le_refl _) hend default
  obtain ⟨e₂', stop₂, hread₂, hshape₂⟩ :=
    expressions_of_derives h₂ (Nat.le_refl _) hend default
  obtain ⟨rfl, -⟩ := Prod.mk.inj (Option.some.inj (hread.symm.trans hread₂))
  exact hshape.symm.trans hshape₂

end Covenant.Grammar
