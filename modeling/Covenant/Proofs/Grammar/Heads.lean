import Covenant.Proofs.Grammar.Derivation

/-! # Heads — the first tokens of what is derived

    The first token of a phrase tells what kind of phrase may follow
    (`Derives.head`): the readers choose their way by it.

    * A tree starts with a word, a literal, an opening bracket or a sign
      (`starts`).
    * Lists start with their separators, parts with their words.
    * A name at the head of a tree is followed neither by `=` nor by `:=`
      (`Derives.second`), so that it is not taken for a keyword argument. -/

namespace Covenant.Grammar

open Covenant.Tree Reader

variable {fit : Expr → Prop} {t u : Token} {ts us : List Token}

/-! ## Starting tokens -/

/-- The operators that a tree may start with. -/
def startingSigns : List String := ["(", "[", "\x7b", "...", "+", "-", "~"]

/-- The keywords that a tree may start with. -/
def startingWords : List String := ["True", "False", "None", "not", "lambda"]

/-- Whether a tree may start with the token. -/
def starts (t : Token) : Bool :=
  match t.kind with
  | .name => !keywords.contains t.text || startingWords.contains t.text
  | .number | .string => true
  | .op => startingSigns.contains t.text
  | _ => false

theorem isOp_eq_true {o : String} : isOp o t = true ↔ t.kind = .op ∧ t.text = o := by
  simp [isOp]

theorem isWord_eq_true {w : String} : isWord w t = true ↔ t.kind = .name ∧ t.text = w := by
  simp [isWord]

theorem isIdentifier_eq_true :
    isIdentifier t = true ↔ t.kind = .name ∧ keywords.contains t.text = false := by
  simp [isIdentifier]

theorem starts_of_isOp {o : String} (h : isOp o t = true) (ho : startingSigns.contains o = true) :
    starts t = true := by
  obtain ⟨hkind, rfl⟩ := isOp_eq_true.1 h
  rw [starts, hkind]
  exact ho

theorem starts_of_isWord {w : String} (h : isWord w t = true)
    (hw : startingWords.contains w = true) : starts t = true := by
  obtain ⟨hkind, rfl⟩ := isWord_eq_true.1 h
  rw [starts, hkind]
  show (_ || _) = true
  rw [hw, Bool.or_true]

theorem starts_of_isIdentifier (h : isIdentifier t = true) : starts t = true := by
  obtain ⟨hkind, hkeyword⟩ := isIdentifier_eq_true.1 h
  rw [starts, hkind]
  show (_ || _) = true
  rw [hkeyword]
  rfl

/-- A token that is one operator is no other. -/
theorem isOp_of_ne {o o' : String} (h : isOp o t = true) (ho : o ≠ o') : isOp o' t = false := by
  obtain ⟨-, rfl⟩ := isOp_eq_true.1 h
  rw [isOp, beq_false_of_ne ho, Bool.and_false]

theorem isWord_of_ne {w w' : String} (h : isWord w t = true) (hw : w ≠ w') :
    isWord w' t = false := by
  obtain ⟨-, rfl⟩ := isWord_eq_true.1 h
  rw [isWord, beq_false_of_ne hw, Bool.and_false]

theorem isWord_of_isOp {o w : String} (h : isOp o t = true) : isWord w t = false := by
  obtain ⟨hkind, -⟩ := isOp_eq_true.1 h
  simp [isWord, hkind]

theorem isOp_of_isWord {o w : String} (h : isWord w t = true) : isOp o t = false := by
  obtain ⟨hkind, -⟩ := isWord_eq_true.1 h
  simp [isOp, hkind]

theorem isOp_of_isIdentifier {o : String} (h : isIdentifier t = true) : isOp o t = false := by
  obtain ⟨hkind, -⟩ := isIdentifier_eq_true.1 h
  simp [isOp, hkind]

theorem isIdentifier_of_isOp {o : String} (h : isOp o t = true) : isIdentifier t = false := by
  obtain ⟨hkind, -⟩ := isOp_eq_true.1 h
  simp [isIdentifier, hkind]

theorem isWord_of_isIdentifier {w : String} (h : isIdentifier t = true)
    (hw : keywords.contains w = true) : isWord w t = false := by
  obtain ⟨hkind, hkeyword⟩ := isIdentifier_eq_true.1 h
  rw [Bool.eq_false_iff]
  intro hword
  obtain ⟨-, rfl⟩ := isWord_eq_true.1 hword
  rw [hw] at hkeyword
  exact nomatch hkeyword

theorem isOp_of_starts {o : String} (h : starts t = true) (ho : startingSigns.contains o = false) :
    isOp o t = false := by
  rw [Bool.eq_false_iff]
  intro hop
  obtain ⟨hkind, rfl⟩ := isOp_eq_true.1 hop
  rw [starts, hkind] at h
  have h : startingSigns.contains t.text = true := h
  rw [ho] at h
  exact nomatch h

theorem isWord_of_starts {w : String} (h : starts t = true)
    (hw : keywords.contains w = true) (hnot : startingWords.contains w = false) :
    isWord w t = false := by
  rw [Bool.eq_false_iff]
  intro hword
  obtain ⟨hkind, rfl⟩ := isWord_eq_true.1 hword
  rw [starts, hkind] at h
  have h : (!keywords.contains t.text || startingWords.contains t.text) = true := h
  rw [hw, hnot] at h
  exact nomatch h

/-! ## Heads -/

/-- Whether a member of a list may start with the token. -/
def Kind.opens : Kind → Token → Bool
  | .rule _, t => starts t
  | .item, t | .target, t => starts t || isOp "*" t
  | .index, t => starts t || isOp "*" t || isOp ":" t

/-- Whether a comparison may start with the token. -/
def compares (t : Token) : Bool :=
  match t.kind with
  | .op => (comparisonSign t.text).isSome
  | .name => t.text == "in" || t.text == "is" || t.text == "not"
  | _ => false

/-- Whether an argument may start with the token. -/
def opensArgument (t : Token) : Bool := starts t || isOp "*" t || isOp "**" t

/-- Whether an entry of a parameter list may start with the token. -/
def opensEntry (t : Token) : Bool :=
  isIdentifier t || isOp "/" t || isOp "*" t || isOp "**" t

/-- Whether a phrase may start with the token. -/
def Phrase.opens : Phrase → Token → Bool
  | .one k _, t | .several k _, t => k.opens t
  | .more sep _ _, t => sep.test t
  | .chain _ _, t => compares t
  | .optional _, t => starts t
  | .step _, t => isOp ":" t
  | .pair _, t => starts t || isOp "**" t
  | .pairs _, t | .arguments _, t | .entries _, t => isOp "," t
  | .parts _, t => isWord "for" t || isWord "async" t
  | .argument _, t | .given _, t => opensArgument t
  | .entry _, t | .parameters _, t => opensEntry t

/-- Whether a phrase may have no tokens. -/
def Phrase.mayBeEmpty : Phrase → Bool
  | .more _ _ es => es.isEmpty
  | .chain os _ => os.isEmpty
  | .optional e => e.isNone
  | .step _ => true
  | .pairs ps => ps.isEmpty
  | .parts gs => gs.isEmpty
  | .arguments as | .given as => as.isEmpty
  | .entries ps | .parameters ps => ps.isEmpty
  | .one .. | .several .. | .pair _ | .argument _ | .entry _ => false

/-- Whether a phrase may stand for the tokens, by the first of them. -/
def Phrase.heads (x : Phrase) : List Token → Bool
  | [] => x.mayBeEmpty
  | t :: _ => x.opens t

theorem Kind.opens_of_starts {k : Kind} (h : starts t = true) : k.opens t = true := by
  cases k <;> simp [Kind.opens, h]

theorem opensArgument_of_starts (h : starts t = true) : opensArgument t = true := by
  simp [opensArgument, h]

theorem starts_of_wordConstant {c : Constant} (hkind : t.kind = .name)
    (h : wordConstant t.text = some c) : starts t = true := by
  have hword : startingWords.contains t.text = true := by
    rw [wordConstant.eq_def] at h
    split at h
    case h_1 heq => rw [heq]; rfl
    case h_2 heq => rw [heq]; rfl
    case h_3 heq => rw [heq]; rfl
    case h_4 => exact nomatch h
  exact starts_of_isWord (isWord_eq_true.2 ⟨hkind, rfl⟩) hword

theorem starts_of_signOp {o : UnaryOp} (hkind : t.kind = .op) (h : signOp t.text = some o) :
    starts t = true := by
  have hsign : startingSigns.contains t.text = true := by
    rw [signOp.eq_def] at h
    split at h
    case h_1 heq => rw [heq]; rfl
    case h_2 heq => rw [heq]; rfl
    case h_3 heq => rw [heq]; rfl
    case h_4 => exact nomatch h
  exact starts_of_isOp (isOp_eq_true.2 ⟨hkind, rfl⟩) hsign

theorem starts_of_kind (h : t.kind = .number ∨ t.kind = .string) : starts t = true := by
  rcases h with h | h <;> rw [starts, h]

theorem Display.starts_of_opener {d : Display} (h : isOp d.opener t = true) : starts t = true :=
  starts_of_isOp h (by cases d <;> rfl)

theorem compares_of_isWord {w : String} (h : isWord w t = true)
    (hw : (w == "in" || w == "is" || w == "not") = true) : compares t = true := by
  obtain ⟨hkind, rfl⟩ := isWord_eq_true.1 h
  rw [compares, hkind]
  exact hw

theorem Compares.head {o : CmpOp} (h : Compares ts o) :
    ∃ t us, ts = t :: us ∧ compares t = true := by
  cases h with
  | sign hkind hsign =>
      refine ⟨_, _, rfl, ?_⟩
      rw [compares, hkind]
      show Option.isSome _ = true
      rw [hsign]
      rfl
  | member ht | is ht | isNot ht | notMember ht => exact ⟨_, _, rfl, compares_of_isWord ht rfl⟩

/-- A phrase starts as one of its first parts does. -/
theorem heads_of_heads {x y : Phrase} (h : x.heads ts = true) (hx : x.mayBeEmpty = false)
    (hy : ∀ t, x.opens t = true → y.opens t = true) : y.heads (ts ++ us) = true := by
  cases ts with
  | nil =>
      have h : x.mayBeEmpty = true := h
      rw [hx] at h
      exact nomatch h
  | cons t ts => exact hy t h

theorem heads_mono {x y : Phrase} (h : x.heads ts = true) (hx : x.mayBeEmpty = false)
    (hy : ∀ t, x.opens t = true → y.opens t = true) : y.heads ts = true :=
  List.append_nil ts ▸ heads_of_heads h hx hy

/-- **THE HEAD OF A PHRASE** is one that its readers look for. -/
theorem Derives.head {x : Phrase} (h : Derives fit ts x) : x.heads ts = true := by
  induction h with
  | name ht => exact starts_of_isIdentifier ht
  | word _ hkind hword => exact starts_of_wordConstant hkind hword
  | number _ hkind => exact starts_of_kind (.inl hkind)
  | @string ts c _ hne hall =>
      obtain ⟨t, us, rfl⟩ := List.exists_cons_of_ne_nil hne
      exact starts_of_kind (.inr (hall t List.mem_cons_self))
  | ellipsis _ ht | group ht | emptyMapping _ ht | mapping _ ht | mappingComprehension _ ht =>
      exact starts_of_isOp ht rfl
  | empty d _ _ ht => exact d.starts_of_opener ht
  | display d _ ht => exact d.starts_of_opener ht
  | comprehension d _ ht => exact d.starts_of_opener ht
  | field _ _ _ _ ih | call _ _ _ _ _ _ ih | callComprehension _ _ _ _ _ _ _ _ _ ih
  | subscript _ _ _ _ _ ih | power _ _ _ _ ih | binary _ _ _ _ _ ih | compare _ _ _ _ ih
  | connected _ _ _ _ _ ih | conditional _ _ _ _ _ _ ih =>
      exact heads_of_heads ih rfl fun _ h => h
  | outer _ ih => exact heads_mono ih rfl fun _ h => h
  | sign _ hkind hsign => exact starts_of_signOp hkind hsign
  | negation _ ht => exact starts_of_isWord ht rfl
  | lambda _ ht => exact starts_of_isWord ht rfl
  | plain _ ih => exact heads_mono ih rfl fun _ h => Kind.opens_of_starts h
  | @starred t ts k r e _ hk ht =>
      show k.opens t = true
      cases k with
      | rule r => exact nomatch hk
      | item | target | index => simp [Kind.opens, ht]
  | @slice t ts us vs a b c _ _ hcolon _ _ ih =>
      cases ts with
      | nil =>
          show (_ || _) = true
          rw [hcolon, Bool.or_true]
      | cons t ts =>
          have hstarts : starts t = true := ih
          exact Kind.opens_of_starts (k := .index) hstarts
  | absent | noStep | noMore | noChain | noPairs | noParts | noArguments | nothingGiven | noEntries
  | noParameters => rfl
  | present _ ih => exact heads_mono ih rfl fun _ h => h
  | step ht => exact ht
  | more ht => exact ht
  | single _ _ ih => exact heads_mono ih rfl fun _ h => h
  | several _ _ _ _ _ ih => exact heads_of_heads ih rfl fun _ h => h
  | chain ho =>
      obtain ⟨t, us, rfl, ht⟩ := ho.head
      exact ht
  | pair _ _ _ ih =>
      refine heads_of_heads ih rfl fun t h => ?_
      show (_ || _) = true
      rw [show starts t = true from h, Bool.true_or]
  | unpackedPair ht =>
      show (_ || _) = true
      rw [ht, Bool.or_true]
  | pairs ht | arguments ht | entries ht => exact ht
  | part hlead hfor =>
      cases hlead with
      | none =>
          show (_ || _) = true
          rw [hfor, Bool.true_or]
      | async ha =>
          show (_ || _) = true
          rw [ha, Bool.or_true]
  | argument _ ih => exact heads_mono ih rfl fun _ h => opensArgument_of_starts h
  | starArgument _ ht | unpackedArgument _ ht => simp [Phrase.heads, Phrase.opens, opensArgument, ht]
  | namedArgument _ ht => exact opensArgument_of_starts (starts_of_isIdentifier ht)
  | given _ _ _ _ ih => exact heads_of_heads ih rfl fun _ h => h
  | slash ht | loneStar ht | star ht | doubleStar ht | parameter ht | parameterDefault ht =>
      simp [Phrase.heads, Phrase.opens, opensEntry, ht]
  | parameters _ _ _ ih => exact heads_of_heads ih rfl fun _ h => h

/-- A phrase that may not be empty has a first token. -/
theorem Derives.exists_cons {x : Phrase} (h : Derives fit ts x) (hx : x.mayBeEmpty = false) :
    ∃ t us, ts = t :: us ∧ x.opens t = true := by
  have hhead := h.head
  cases ts with
  | nil =>
      have hhead : x.mayBeEmpty = true := hhead
      rw [hx] at hhead
      exact nomatch hhead
  | cons t us => exact ⟨t, us, rfl, hhead⟩

/-! ## Second tokens -/

/-- Whether a token gives a value to the name in front of it. -/
def assigns (t : Token) : Bool := isOp "=" t || isOp ":=" t

/-- No name stands in front of a token that gives it a value, at the head. -/
def Unassigned (ts : List Token) : Prop :=
  ∀ t u us, ts = t :: u :: us → isIdentifier t = true → assigns u = false

theorem unassigned_of_not_isIdentifier (h : isIdentifier t = false) : Unassigned (t :: ts) := by
  intro t' u us heq ht
  obtain ⟨rfl, -⟩ := List.cons.inj heq
  rw [h] at ht
  exact nomatch ht

theorem unassigned_of_isOp {o : String} (h : isOp o t = true) : Unassigned (t :: ts) :=
  unassigned_of_not_isIdentifier (isIdentifier_of_isOp h)

theorem unassigned_of_isWord {w : String} (h : isWord w t = true)
    (hw : keywords.contains w = true) : Unassigned (t :: ts) := by
  refine unassigned_of_not_isIdentifier ?_
  rw [Bool.eq_false_iff]
  intro hname
  rw [isWord_of_isIdentifier hname hw] at h
  exact nomatch h

theorem Unassigned.append (h : Unassigned ts) (hne : ts ≠ [])
    (hus : ∀ u ∈ us.head?, assigns u = false) : Unassigned (ts ++ us) := by
  intro t u vs heq ht
  match ts, heq with
  | [], _ => exact (hne rfl).elim
  | [_], heq =>
      obtain ⟨rfl, rfl⟩ := List.cons.inj heq
      exact hus u rfl
  | t' :: u' :: ts, heq =>
      obtain ⟨rfl, htail⟩ := List.cons.inj heq
      obtain ⟨rfl, -⟩ := List.cons.inj htail
      exact h t' u' ts rfl ht

/-- A tree with more tokens behind it. -/
theorem Derives.unassigned_append {k : Kind} {e : Expr} (h : Derives fit ts (.one k e))
    (hts : Unassigned ts) (hus : ∀ u ∈ us.head?, assigns u = false) : Unassigned (ts ++ us) := by
  obtain ⟨t, us, rfl, -⟩ := h.exists_cons rfl
  exact hts.append (List.cons_ne_nil t us) hus

theorem head_cons (h : assigns t = false) : ∀ u ∈ (t :: ts).head?, assigns u = false := by
  intro u hu
  obtain rfl := Option.some.inj hu
  exact h

theorem assigns_of_isOp {o : String} (h : isOp o t = true) (ho : o ≠ "=" ∧ o ≠ ":=") :
    assigns t = false := by
  rw [assigns, isOp_of_ne h ho.1, isOp_of_ne h ho.2]
  rfl

theorem assigns_of_isWord {w : String} (h : isWord w t = true) : assigns t = false := by
  rw [assigns, isOp_of_isWord h, isOp_of_isWord h]
  rfl

theorem assigns_of_compares (h : compares t = true) : assigns t = false := by
  rw [Bool.eq_false_iff]
  intro hassigns
  rw [assigns, Bool.or_eq_true] at hassigns
  rcases hassigns with hop | hop <;>
  · obtain ⟨hkind, htext⟩ := isOp_eq_true.1 hop
    rw [compares, hkind, htext] at h
    exact nomatch h

theorem Rule.operator_assigns (r : Rule) : r.operator "=" = none ∧ r.operator ":=" = none := by
  cases r <;> exact ⟨rfl, rfl⟩

theorem assigns_of_operator {r : Rule} {o : BinOp} (h : r.operator t.text = some o) :
    assigns t = false := by
  rw [Bool.eq_false_iff]
  intro hassigns
  rw [assigns, Bool.or_eq_true] at hassigns
  rcases hassigns with hop | hop
  · rw [(isOp_eq_true.1 hop).2, r.operator_assigns.1] at h
    exact nomatch h
  · rw [(isOp_eq_true.1 hop).2, r.operator_assigns.2] at h
    exact nomatch h

/-- Lists of members do not start with a token that gives a value. -/
theorem Derives.head_more {sep : Separator} {k : Kind} {es : List Expr}
    (h : Derives fit ts (.more sep k es)) : ∀ u ∈ ts.head?, assigns u = false := by
  intro u hu
  have hhead := h.head
  cases ts with
  | nil => exact nomatch hu
  | cons t ts =>
      obtain rfl := Option.some.inj hu
      cases sep with
      | comma => exact assigns_of_isOp (o := ",") hhead (by decide)
      | word w => exact assigns_of_isWord (w := w) hhead

theorem head_of_head_append (hts : ∀ u ∈ ts.head?, assigns u = false)
    (hus : ∀ u ∈ us.head?, assigns u = false) : ∀ u ∈ (ts ++ us).head?, assigns u = false := by
  cases ts with
  | nil => exact hus
  | cons => exact hts

theorem Trail.head (h : Trail ts) : ∀ u ∈ ts.head?, assigns u = false := by
  cases h with
  | none => nofun
  | comma ht =>
      intro u hu
      obtain rfl := Option.some.inj hu
      exact assigns_of_isOp ht (by decide)

/-- Whether a phrase starts with a tree. -/
def Phrase.isTree : Phrase → Bool
  | .one .. | .several .. | .optional _ | .pair _ => true
  | _ => false

/-- **NO NAME IS GIVEN A VALUE** at the head of a tree. -/
theorem Derives.second {x : Phrase} (h : Derives fit ts x) :
    x.isTree = true → Unassigned ts := by
  induction h with
  | name | word | number | ellipsis =>
      intro _ t u us heq
      exact nomatch (List.cons.inj heq).2
  | @string ts c _ _ hall =>
      rintro - t u us rfl ht
      have hkind := hall t List.mem_cons_self
      rw [(isIdentifier_eq_true.1 ht).1] at hkind
      exact nomatch hkind
  | group ht | empty _ _ _ ht | display _ _ ht | comprehension _ _ ht | emptyMapping _ ht
  | mapping _ ht | mappingComprehension _ ht | starred _ _ ht | unpackedPair ht =>
      exact fun _ => unassigned_of_isOp ht
  | negation _ ht | lambda _ ht => exact fun _ => unassigned_of_isWord ht rfl
  | sign _ hkind => exact fun _ => unassigned_of_isOp (isOp_eq_true.2 ⟨hkind, rfl⟩)
  | field _ hts ht _ ih | call hts ht _ _ _ _ ih | callComprehension _ hts ht _ _ _ _ _ _ ih
  | subscript _ hts ht _ _ ih | power _ hts ht _ ih =>
      exact fun _ => hts.unassigned_append (ih rfl) (head_cons (assigns_of_isOp ht (by decide)))
  | binary _ hts _ hop _ ih =>
      exact fun _ => hts.unassigned_append (ih rfl) (head_cons (assigns_of_operator hop))
  | @compare ts us e os es _ hts hus _ ih =>
      intro _
      refine hts.unassigned_append (ih rfl) fun u hu => ?_
      have hhead := hus.head
      cases us with
      | nil => exact nomatch hu
      | cons t us =>
          obtain rfl := Option.some.inj hu
          exact assigns_of_compares hhead
  | connected _ _ hts hus _ ih => exact fun _ => hts.unassigned_append (ih rfl) hus.head_more
  | conditional _ hts ht _ _ _ ih =>
      exact fun _ => hts.unassigned_append (ih rfl) (head_cons (assigns_of_isWord ht))
  | outer _ ih | plain _ ih | present _ ih | single _ _ ih => exact fun _ => ih rfl
  | @slice t ts us vs a b c _ hts hcolon _ _ ih =>
      intro _
      cases ts with
      | nil => exact unassigned_of_isOp hcolon
      | cons t ts =>
          exact (ih rfl).append (List.cons_ne_nil t ts)
            (head_cons (assigns_of_isOp hcolon (by decide)))
  | absent => exact fun _ => nofun
  | several _ hts hus hvs _ ih =>
      exact fun _ => hts.unassigned_append (ih rfl) (head_of_head_append hus.head_more hvs.head)
  | pair hts ht _ ih =>
      exact fun _ => hts.unassigned_append (ih rfl) (head_cons (assigns_of_isOp ht (by decide)))
  | _ => exact nofun

end Covenant.Grammar
