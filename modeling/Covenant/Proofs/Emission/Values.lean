import Covenant.Proofs.Emission.Parameters
import Covenant.Proofs.Grammar.WholeNumbers
import Covenant.Proofs.Text.QuotedBytes
import Covenant.Proofs.Value.Literals

/-! # Values — what a wrapper spells out is read as a value

    The text of a value is put together from words, numbers, quoted texts and
    brackets.

    * `WritesValue n cs v` says what such characters are as a literal: the
      value `v`, or none.  What is asked of the place is that `n` more brackets
      may open there.
    * There is one rule for each way to put texts together: displays, mappings
      and calls around values between commas (`WritesValues`, `WritesPairs`).
    * A whole text that is put together by these rules is read as its value
      (`WritesValue.readLiteral?_eq`). -/

namespace Covenant.Wrapper

open Text Token Grammar Signature Declaration Covenant.Tree Reader Value

variable {n m k : Nat} {cs ds : List Char} {v w : Option Datum} {vs ws : Option (List Datum)}

/-- Characters that are read as an expression with this value as a literal, in front of a tail and
    where `n` more brackets may open. -/
structure WritesValue (n : Nat) (cs : List Char) (v : Option Datum) : Prop where
  flat : FlatText cs
  starts : ∃ c rest, cs = c :: rest ∧ StartsToken c
  reads : ∃ ts e, Derives anyCall ts (.one (.rule .expression) e) ∧ literal? e = v ∧
    ∀ b tail : List Char, b.length + n ≤ maxDepth → Tail tail →
      Token.Passes cs tail (faces ts) b b

theorem WritesValue.mono (h : WritesValue n cs v) (hnm : n ≤ m) : WritesValue m cs v where
  flat := h.flat
  starts := h.starts
  reads := by
    obtain ⟨ts, e, hderives, hvalue, hpasses⟩ := h.reads
    exact ⟨ts, e, hderives, hvalue, fun b tail hb htail =>
      hpasses b tail (Nat.le_trans (Nat.add_le_add_left hnm _) hb) htail⟩

/-! ## Words, numbers and quoted texts -/

theorem derives_expression {ts : List Token} {e : Expr}
    (h : Derives anyCall ts (.one (.rule .atom) e)) :
    Derives anyCall ts (.one (.rule .expression) e) := h.climb 14

theorem writesValue_word {word : String} {k : Constant} (hword : wordConstant word = some k)
    (hname : isIdentifier word.toList = true) (hflat : FlatText word.toList) :
    WritesValue 0 word.toList (some (.ofConstant k)) where
  flat := hflat
  starts := (begins_self hname).starts
  reads := ⟨[tokenOf (wordFace word)], .constant nowhere k,
    derives_expression (.word nowhere rfl hword), rfl,
    fun _ _ _ htail => passes_text hname (endsName_of_tail htail)⟩

theorem writesValue_name {name : String} (hname : IsName name) (hflat : FlatText name.toList) :
    WritesValue 0 name.toList none where
  flat := hflat
  starts := (begins_self hname.1).starts
  reads := ⟨[tokenOf (wordFace name)], nameAt name, (derives_nameAt hname.2).of_primary, rfl,
    fun _ _ _ htail => passes_text hname.1 (endsName_of_tail htail)⟩

theorem writesValue_quote (s : String) : WritesValue 0 (quote s).toList (some (.str s)) where
  flat := flat_quote s
  starts := by
    obtain ⟨c, more, hlist, hc, -⟩ := scanToken_quote s
    exact ⟨c, more, hlist, hc⟩
  reads := ⟨[tokenOf (.string, quote s)], literal s, derives_literal s, rfl,
    fun _ _ _ htail => passes_quote s htail⟩

theorem writesValue_quoteBytes (bs : List UInt8) :
    WritesValue 0 (quoteBytes bs).toList (some (.bytes bs)) where
  flat := flat_quoteBytes bs
  starts := ⟨'b', _, toList_quoteBytes bs, by decide⟩
  reads := by
    refine ⟨[tokenOf (.string, quoteBytes bs)], .constant nowhere (.bytes bs),
      derives_expression (.string nowhere (List.cons_ne_nil _ _)
        (List.forall_mem_singleton.mpr rfl) ?_), rfl, fun _ _ _ htail => passes_quoteBytes bs htail⟩
    intro read us hus
    obtain ⟨t, rfl, ht⟩ := List.map_eq_singleton_iff.mp hus
    exact concatenated_quoteBytes ht read

/-! ## Numbers -/

/-- The token of a number. -/
def numberFace (k : Nat) : Face := (.number, String.ofList (Nat.toDigits 10 k))

theorem derives_number {k : Nat} (h : HasFewDigits k) :
    Derives anyCall [tokenOf (numberFace k)] (.one (.rule .atom) (.constant nowhere (.int k))) := by
  refine .number nowhere rfl ?_
  show numberConstant (String.ofList (Nat.toDigits 10 k)).toList = _
  rw [String.toList_ofList]
  exact numberConstant_toDigits h

theorem startsToken_of_isDigit {c : Char} (h : c.isDigit = true) : StartsToken c :=
  ⟨isDigit_ne h (by decide), isDigit_ne h (by decide), isDigit_ne h (by decide),
    isDigit_ne h (by decide), isDigit_ne h (by decide), isDigit_ne h (by decide)⟩

theorem flatText_toDigits (k : Nat) : FlatText (Nat.toDigits 10 k) := by
  intro c hc
  have hdigit := isDigit_of_mem_toDigits hc
  have hcode : 48 ≤ c.toNat ∧ c.toNat ≤ 57 := by
    obtain ⟨hl, hu⟩ := Bool.and_eq_true_iff.mp hdigit
    exact ⟨of_decide_eq_true hl, of_decide_eq_true hu⟩
  refine ⟨?_, isDigit_ne hdigit (by decide)⟩
  simp [isLineBoundary]
  omega

theorem exists_toDigits (k : Nat) : ∃ c rest, Nat.toDigits 10 k = c :: rest ∧ c.isDigit = true := by
  cases hlist : Nat.toDigits 10 k with
  | nil => exact absurd hlist Nat.toDigits_ne_nil
  | cons c rest =>
      exact ⟨c, rest, rfl, isDigit_of_mem_toDigits (n := k) (hlist ▸ List.mem_cons_self)⟩

/-- **WHOLE NUMBERS**; a negative one is a number under a sign. -/
theorem writesValue_int {k : Int} (h : HasFewDigits k.natAbs) :
    WritesValue 0 (toString k).toList (some (.int k)) := by
  obtain ⟨c, rest, hlist, hdigit⟩ := exists_toDigits k.natAbs
  have hnumber := derives_number h
  have hpasses {b tail : List Char} (htail : Tail tail) :
      Token.Passes (Nat.toDigits 10 k.natAbs) tail [numberFace k.natAbs] b b :=
    passes_toDigits _ htail
  rw [toList_toString_int]
  split_ifs with hk
  · have hminus {b tail : List Char} :
        Token.Passes ['-'] (Nat.toDigits 10 k.natAbs ++ tail) [signFace "-"] b b := by
      rw [hlist]
      exact passes_minus ⟨isDigit_ne hdigit (by decide), isDigit_ne hdigit (by decide)⟩
    refine ⟨flatText_cons.mpr ⟨by decide, flatText_toDigits _⟩, ⟨'-', _, rfl, by decide⟩,
      tokenOf (signFace "-") :: [tokenOf (numberFace k.natAbs)],
      .compound nowhere (.unaryOp .minus) [.constant nowhere (.int k.natAbs)],
      (Derives.sign nowhere rfl rfl (hnumber.climb 3)).climb 11, ?_,
      fun b tail _ htail => hminus.append (hpasses htail)⟩
    show some (Datum.int (-(k.natAbs : Int))) = _
    rw [Int.ofNat_natAbs_of_nonpos (Int.le_of_lt hk), Int.neg_neg]
  · refine ⟨flatText_toDigits _, ⟨c, rest, hlist, startsToken_of_isDigit hdigit⟩,
      [tokenOf (numberFace k.natAbs)], .constant nowhere (.int k.natAbs),
      derives_expression hnumber, ?_, fun b tail _ htail => hpasses htail⟩
    show some (Datum.int (k.natAbs : Int)) = _
    rw [Int.natAbs_of_nonneg (Int.not_lt.mp hk)]

/-! ## Values between commas -/

/-- Characters that are read as `k` expressions between commas, with these values as literals. -/
def WritesValues (n k : Nat) (cs : List Char) (vs : Option (List Datum)) : Prop :=
  FlatText cs ∧ ∃ ts us e es, Derives anyCall ts (.one (.rule .expression) e) ∧
    Derives anyCall us (.more .comma (.rule .expression) es) ∧ literals? (e :: es) = vs ∧
    (e :: es).length = k ∧ ∀ b tail : List Char, b.length + n ≤ maxDepth → Tail tail →
      Token.Passes cs tail (faces (ts ++ us)) b b

theorem tail_comma (cs : List Char) : Tail (',' :: cs) := ⟨_, _, rfl, ends_comma⟩

theorem passes_between {b rest : List Char} :
    Token.Passes ", ".toList rest [signFace ","] b b :=
  passes_comma.append (passes_blank (.inl rfl))

theorem WritesValue.values (h : WritesValue n cs v) : WritesValues n 1 cs (v.map fun d => [d]) := by
  obtain ⟨ts, e, hderives, hvalue, hpasses⟩ := h.reads
  refine ⟨h.flat, ts, [], e, [], hderives, .noMore, ?_, rfl, ?_⟩
  · rw [literals?, hvalue]
    cases v <;> rfl
  · rwa [List.append_nil]

theorem WritesValue.cons (h : WritesValue n cs v) (hmore : WritesValues n k ds vs) :
    WritesValues n (k + 1) (cs ++ (", ".toList ++ ds)) (v.bind fun d => vs.map (d :: ·)) := by
  obtain ⟨ts, e, hderives, hvalue, hpasses⟩ := h.reads
  obtain ⟨hflat, us, us', f, fs, hfirst, hothers, hvalues, rfl, hpasses'⟩ := hmore
  refine ⟨?_, ts, tokenOf (signFace ",") :: (us ++ us'), e, f :: fs, hderives,
    .more rfl hfirst hothers, ?_, rfl, fun b tail hb htail => ?_⟩
  · rw [flatText_append, flatText_append]
    exact ⟨h.flat, by decide, hflat⟩
  · rw [literals?, hvalue, hvalues]
    cases v with
    | none => rfl
    | some d => cases vs <;> rfl
  · rw [faces_append]
    exact (hpasses b _ hb (tail_comma _)).append (passes_between.append (hpasses' b tail hb htail))

theorem mapM_cons_eq {α : Type} {value : α → Option Datum} (x : α) (xs : List α) :
    (x :: xs).mapM value = (value x).bind fun d => (xs.mapM value).map (d :: ·) := by
  rw [List.mapM_cons]
  cases value x with
  | none => rfl
  | some d => cases xs.mapM value <;> rfl

/-- **VALUES BETWEEN COMMAS**, from their texts. -/
theorem writesValues {α : Type} {text : α → String} {value : α → Option Datum} {x : α}
    {xs : List α} (h : ∀ y ∈ x :: xs, WritesValue n (text y).toList (value y)) :
    WritesValues n (x :: xs).length (", ".intercalate ((x :: xs).map text)).toList
      ((x :: xs).mapM value) := by
  rw [String.toList_intercalate]
  induction xs generalizing x with
  | nil =>
      have hone := (h x List.mem_cons_self).values
      rw [List.map_singleton, List.map_singleton, List.intercalate_singleton]
      cases hx : value x <;> simpa [hx] using hone
  | cons y xs ih =>
      rw [List.forall_mem_cons] at h
      have hall := h.1.cons (ih h.2)
      simp only [List.map_cons, List.intercalate_cons_cons, List.append_assoc] at hall ⊢
      rw [mapM_cons_eq]
      exact hall

/-! ## Brackets -/

theorem passes_opener (d : Display) {b rest : List Char} (hdepth : b.length < maxDepth) :
    Token.Passes d.opener.toList rest [signFace d.opener] b (d.closer.toList ++ b) := by
  cases d <;> exact passes_token (by decide) (turns_open rfl hdepth) rfl

theorem passes_closer (d : Display) {b rest : List Char} :
    Token.Passes d.closer.toList rest [signFace d.closer] (d.closer.toList ++ b) b := by
  cases d <;> exact passes_token (by decide) (turns_close (by decide)) rfl

theorem tail_closer (d : Display) (rest : List Char) : Tail (d.closer.toList ++ rest) := by
  cases d with
  | tuple => exact ⟨_, _, rfl, ends_round⟩
  | list => exact ⟨_, _, rfl, ⟨by decide, by decide, by decide, by decide, by decide⟩⟩
  | set => exact ⟨_, _, rfl, ⟨by decide, by decide, by decide, by decide, by decide⟩⟩

/-- Characters between brackets, in front of whatever comes. -/
def bracketed (d : Display) (cs : List Char) : List Char :=
  d.opener.toList ++ (cs ++ d.closer.toList)

theorem flat_bracketed (d : Display) (h : FlatText cs) : FlatText (bracketed d cs) := by
  rw [bracketed, flatText_append, flatText_append]
  cases d <;> exact ⟨by decide, h, by decide⟩

theorem starts_bracketed (d : Display) (cs : List Char) :
    ∃ c rest, bracketed d cs = c :: rest ∧ StartsToken c := by
  cases d <;> exact ⟨_, _, rfl, by decide⟩

/-- **BRACKETS** are passed over with what stands between them. -/
theorem passes_bracketed (d : Display) {ts : List Token} {b rest : List Char}
    (hdepth : b.length < maxDepth)
    (h : Token.Passes cs (d.closer.toList ++ rest) (faces ts) (d.closer.toList ++ b)
      (d.closer.toList ++ b)) :
    Token.Passes (bracketed d cs) rest
      (faces (tokenOf (signFace d.opener) :: (ts ++ [tokenOf (signFace d.closer)]))) b b := by
  have hfaces : faces (tokenOf (signFace d.opener) :: (ts ++ [tokenOf (signFace d.closer)]))
      = [signFace d.opener] ++ (faces ts ++ [signFace d.closer]) := by
    rw [faces, List.map_cons, List.map_append]
    rfl
  rw [hfaces]
  exact (passes_opener d hdepth).append (h.append (passes_closer d))

theorem length_closer (d : Display) (b : List Char) :
    (d.closer.toList ++ b).length = b.length + 1 := by
  cases d <;> rfl

/-- The comma that may come last. -/
def lastComma (comma : Bool) : List Face := if comma then [signFace ","] else []

/-- The characters of a comma that may come last. -/
def lastCommaText (comma : Bool) : List Char := if comma then [','] else []

/-- **DISPLAYS** of values; a tuple needs a comma. -/
theorem WritesValues.display (h : WritesValues n k cs vs) (d : Display) (comma : Bool)
    (hd : d = .tuple → 1 < k ∨ comma = true) :
    WritesValue (n + 1) (bracketed d (cs ++ lastCommaText comma)) (vs.bind (displayed? d)) := by
  obtain ⟨hflat, ts, us, e, es, hfirst, hothers, hvalues, rfl, hpasses⟩ := h
  have htrail : Trail ((lastComma comma).map tokenOf) := by
    cases comma
    · exact .none
    · exact .comma rfl
  have hmany : d = .tuple → es ≠ [] ∨ (lastComma comma).map tokenOf ≠ [] := by
    intro htuple
    rcases hd htuple with hmany | rfl
    · exact .inl fun hnil => by simp [hnil] at hmany
    · exact .inr (List.cons_ne_nil _ _)
  have hderives := Derives.display (t := tokenOf (signFace d.opener))
    (u := tokenOf (signFace d.closer)) d nowhere (by cases d <;> rfl) (.plain hfirst)
    hothers.items htrail hmany (by cases d <;> rfl)
  refine ⟨flat_bracketed d (flatText_append.mpr ⟨hflat, ?_⟩), starts_bracketed d _, _, _,
    derives_expression hderives, by rw [literal?_display, hvalues], fun b tail hb htail => ?_⟩
  · cases comma <;> decide
  · rw [← List.append_assoc, ← List.append_assoc]
    refine passes_bracketed d (by omega) ?_
    have hbehind : Tail (lastCommaText comma ++ (d.closer.toList ++ tail)) := by
      cases comma
      · exact tail_closer d tail
      · exact tail_comma _
    have hlast : Token.Passes (lastCommaText comma) (d.closer.toList ++ tail)
        (faces ((lastComma comma).map tokenOf)) (d.closer.toList ++ b) (d.closer.toList ++ b) := by
      cases comma
      · exact passes_nil
      · exact passes_comma
    rw [faces_append]
    refine (hpasses _ _ ?_ hbehind).append hlast
    rw [length_closer]
    omega

/-- Brackets with nothing between them; curly ones are an empty mapping. -/
theorem writesValue_empty (d : Display) :
    WritesValue 1 (bracketed d []) (match d with
      | .tuple => some (.tuple [])
      | .list => some (.list [])
      | .set => some (.dict [])) := by
  have hpasses {b tail : List Char} (hb : b.length + 1 ≤ maxDepth) :
      Token.Passes (bracketed d []) tail
        (faces [tokenOf (signFace d.opener), tokenOf (signFace d.closer)]) b b := by
    have hinside : Token.Passes [] (d.closer.toList ++ tail) (faces []) (d.closer.toList ++ b)
        (d.closer.toList ++ b) := passes_nil
    exact passes_bracketed d hb hinside
  have hflat : FlatText (bracketed d []) := flat_bracketed d (List.forall_mem_nil _)
  cases d with
  | tuple => exact ⟨hflat, starts_bracketed _ _, _, _, derives_expression
      (.empty .tuple nowhere (by decide) rfl rfl), rfl, fun _ _ hb _ => hpasses hb⟩
  | list => exact ⟨hflat, starts_bracketed _ _, _, _, derives_expression
      (.empty .list nowhere (by decide) rfl rfl), rfl, fun _ _ hb _ => hpasses hb⟩
  | set => exact ⟨hflat, starts_bracketed _ _, _, _, derives_expression
      (.emptyMapping nowhere rfl rfl), rfl, fun _ _ hb _ => hpasses hb⟩

/-! ## Mappings -/

/-- Characters that are read as items of a mapping between commas, with these keys and values as
    literals. -/
def WritesPairs (n : Nat) (cs : List Char) (ks vs : Option (List Datum)) : Prop :=
  FlatText cs ∧ ∃ ts us p ps, Derives anyCall ts (.pair (some (Prod.fst p), Prod.snd p)) ∧
    Derives anyCall us (.pairs (ps.map fun p : Expr × Expr => (some p.1, p.2))) ∧
    literals? ((p :: ps).map (·.1)) = ks ∧ literals? ((p :: ps).map (·.2)) = vs ∧
    ∀ b tail : List Char, b.length + n ≤ maxDepth → Tail tail →
      Token.Passes cs tail (faces (ts ++ us)) b b

/-- **ONE ITEM** of a mapping. -/
theorem WritesValue.exists_pair (h : WritesValue n cs v) (h' : WritesValue n ds w) :
    FlatText (cs ++ (": ".toList ++ ds)) ∧ ∃ ts e f, Derives anyCall ts (.pair (some e, f)) ∧
      literal? e = v ∧ literal? f = w ∧
      ∀ b tail : List Char, b.length + n ≤ maxDepth → Tail tail →
        Token.Passes (cs ++ (": ".toList ++ ds)) tail (faces ts) b b := by
  obtain ⟨ts, e, hkey, hvalue, hpasses⟩ := h.reads
  obtain ⟨us, f, hitem, hvalue', hpasses'⟩ := h'.reads
  refine ⟨?_, ts ++ tokenOf (signFace ":") :: us, e, f, .pair hkey rfl hitem, hvalue, hvalue',
    fun b tail hb htail => ?_⟩
  · rw [flatText_append, flatText_append]
    exact ⟨h.flat, by decide, h'.flat⟩
  · have hcolon {rest : List Char} : Token.Passes ": ".toList rest [signFace ":"] b b :=
      (passes_colon (by decide)).append (passes_blank (.inl rfl))
    rw [faces_append]
    exact (hpasses b _ hb ⟨_, _, rfl, ends_colon⟩).append (hcolon.append (hpasses' b tail hb htail))

theorem WritesValue.pair (h : WritesValue n cs v) (h' : WritesValue n ds w) :
    WritesPairs n (cs ++ (": ".toList ++ ds)) (v.map fun d => [d]) (w.map fun d => [d]) := by
  obtain ⟨hflat, ts, e, f, hpair, hkey, hvalue, hpasses⟩ := h.exists_pair h'
  refine ⟨hflat, ts, [], (e, f), [], hpair, .noPairs, ?_, ?_, ?_⟩
  · rw [List.map_singleton, literals?, hkey]
    cases v <;> rfl
  · rw [List.map_singleton, literals?, hvalue]
    cases w <;> rfl
  · rwa [List.append_nil]

theorem WritesPairs.cons {cs' : List Char} (hmore : WritesPairs n cs' vs ws)
    (h : WritesValue n cs v) (h' : WritesValue n ds w) :
    WritesPairs n (cs ++ (": ".toList ++ ds) ++ (", ".toList ++ cs'))
      (v.bind fun d => vs.map (d :: ·)) (w.bind fun d => ws.map (d :: ·)) := by
  obtain ⟨hflat, ts, e, f, hpair, hkey, hvalue, hpasses⟩ := h.exists_pair h'
  obtain ⟨hflat', us, us', p, ps, hfirst, hothers, hkeys, hvalues, hpasses'⟩ := hmore
  refine ⟨?_, ts, tokenOf (signFace ",") :: (us ++ us'), (e, f), p :: ps, hpair,
    .pairs rfl hfirst hothers, ?_, ?_, fun b tail hb htail => ?_⟩
  · exact flatText_append.mpr ⟨hflat, flatText_append.mpr ⟨by decide, hflat'⟩⟩
  · rw [List.map_cons, literals?, hkey, hkeys]
    cases v with
    | none => rfl
    | some d => cases vs <;> rfl
  · rw [List.map_cons, literals?, hvalue, hvalues]
    cases w with
    | none => rfl
    | some d => cases ws <;> rfl
  · rw [faces_append]
    exact (hpasses b _ hb (tail_comma _)).append (passes_between.append (hpasses' b tail hb htail))

/-- **ITEMS OF A MAPPING** between commas, from the texts of their keys and values. -/
theorem writesPairs {α : Type} {text : α → String} {value : α → Option Datum} {p : α × α}
    {ps : List (α × α)} (h : ∀ q ∈ p :: ps, WritesValue n (text q.1).toList (value q.1) ∧
      WritesValue n (text q.2).toList (value q.2)) :
    WritesPairs n
      (", ".intercalate ((p :: ps).map fun q => text q.1 ++ ": " ++ text q.2)).toList
      (((p :: ps).map (·.1)).mapM value) (((p :: ps).map (·.2)).mapM value) := by
  rw [String.toList_intercalate]
  induction ps generalizing p with
  | nil =>
      have hone := h p List.mem_cons_self
      have hpair := hone.1.pair hone.2
      simp only [List.map_cons, List.map_nil, List.intercalate_singleton, String.toList_append,
        List.append_assoc]
      cases hkey : value p.1 <;> cases hvalue : value p.2 <;> simpa [hkey, hvalue] using hpair
  | cons q ps ih =>
      rw [List.forall_mem_cons] at h
      have hall := (ih h.2).cons h.1.1 h.1.2
      simp only [List.map_cons, List.intercalate_cons_cons, List.append_assoc,
        String.toList_append] at hall ⊢
      rw [mapM_cons_eq p.1, mapM_cons_eq p.2]
      exact hall

/-- **MAPPINGS** from values to values. -/
theorem WritesPairs.mapping (h : WritesPairs n cs vs ws) : WritesValue (n + 1) (bracketed .set cs)
    (vs.bind fun ks => ws.bind fun ds => mappingOf? ks ds []) := by
  obtain ⟨hflat, ts, us, p, ps, hfirst, hothers, hkeys, hvalues, hpasses⟩ := h
  have hderives := Derives.mapping (t := tokenOf (signFace "\x7b"))
    (u := tokenOf (signFace "\x7d")) nowhere rfl hfirst hothers .none rfl
  refine ⟨flat_bracketed _ hflat, starts_bracketed _ _, _, _, derives_expression hderives, ?_,
    fun b tail hb htail => ?_⟩
  · rw [← hkeys, ← hvalues]
    exact literal?_mappingOf nowhere (p :: ps)
  · rw [List.nil_append, ← List.append_assoc]
    refine passes_bracketed .set (by omega) (hpasses _ _ ?_ (tail_closer .set tail))
    rw [length_closer]
    omega

/-! ## Calls -/

theorem derives_positional {us : List Token} {es : List Expr}
    (h : Derives anyCall us (.more .comma (.rule .expression) es)) :
    Derives anyCall us (.arguments (es.map .positional)) := by
  generalize hx : Phrase.more .comma (.rule .expression) es = x at h
  induction h generalizing es with
  | noMore =>
      cases hx
      exact .noArguments
  | more ht hts _ _ ihMore =>
      cases hx
      exact .arguments ht (.argument hts) (ihMore rfl)
  | _ => exact nomatch hx

theorem inOrder_positional (es : List Expr) {before : List Argument}
    (h : before.all (fun a => a.keyword?.isNone) = true) :
    Argument.inOrder before (es.map .positional) = true := by
  induction es generalizing before with
  | nil => rfl
  | cons e es ih =>
      rw [List.map_cons, Argument.inOrder, Argument.mayFollow, h, Bool.true_and]
      refine ih ?_
      rw [List.all_append, h]
      rfl

/-- A name with brackets behind it. -/
theorem passes_called {name : String} (hname : IsName name) {ts : List Token} {b rest : List Char}
    (h : Token.Passes (bracketed .tuple cs) rest (faces ts) b b) :
    Token.Passes (name.toList ++ bracketed .tuple cs) rest
      (faces ([tokenOf (wordFace name)] ++ ts)) b b := by
  rw [faces_append]
  have hends : EndsName (bracketed .tuple cs ++ rest) := endsName_cons (by decide)
  exact (passes_text hname.1 hends).append h

/-- **CALLS** are no literals, whatever they are given. -/
theorem WritesValues.call {name : String} (h : WritesValues n k cs vs) (hname : IsName name)
    (hflat : FlatText name.toList) (hset : name ≠ "set") :
    WritesValue (n + 1) (name.toList ++ bracketed .tuple cs) none := by
  obtain ⟨hinside, ts, us, e, es, hfirst, hothers, -, -, hpasses⟩ := h
  have hgiven : Derives anyCall (ts ++ (us ++ [])) (.given (.positional e :: es.map .positional)) :=
    .given (.argument hfirst) (derives_positional hothers) .none
      (inOrder_positional (e :: es) (List.all_eq_true.mpr nofun))
  have hcall := Derives.call (t := tokenOf (signFace "(")) (u := tokenOf (signFace ")"))
    (derives_nameAt hname.2) rfl hgiven rfl rfl trivial
  refine ⟨flatText_append.mpr ⟨hflat, flat_bracketed _ hinside⟩,
    ((begins_self hname.1).append _).starts, _, _, hcall.of_primary, ?_, fun b tail hb _ => ?_⟩
  · exact literal?_call_eq_none fun _ _ heq => absurd (Expr.name.inj heq).2.1 hset
  · refine passes_called hname (passes_bracketed .tuple (by omega) ?_)
    rw [List.append_nil]
    exact hpasses _ _ (by rw [length_closer]; omega) (tail_closer .tuple tail)

/-- A call without arguments is a literal if it is that of the empty set. -/
theorem writesValue_bareCall {name : String} (hname : IsName name) (hflat : FlatText name.toList) :
    WritesValue 1 (name.toList ++ bracketed .tuple [])
      (if name = "set" then some (.set []) else none) := by
  have hcall := Derives.call (t := tokenOf (signFace "(")) (u := tokenOf (signFace ")"))
    (derives_nameAt hname.2) rfl .nothingGiven rfl rfl trivial
  refine ⟨flatText_append.mpr ⟨hflat, flat_bracketed _ (List.forall_mem_nil _)⟩,
    ((begins_self hname.1).append _).starts, _, _, hcall.of_primary, ?_, fun b tail hb _ => ?_⟩
  · split_ifs with hset
    · rw [hset]
      rfl
    · exact literal?_call_eq_none fun _ _ heq => absurd (Expr.name.inj heq).2.1 hset
  · have hinside : Token.Passes [] (Display.tuple.closer.toList ++ tail) (faces [])
        (Display.tuple.closer.toList ++ b) (Display.tuple.closer.toList ++ b) := passes_nil
    exact passes_called hname (passes_bracketed .tuple hb hinside)

/-! ## Whole texts -/

/-- **A TEXT** that is put together from values is read as its own value. -/
theorem WritesValue.readLiteral?_eq {text : String} (h : WritesValue n text.toList v)
    (hn : n ≤ maxDepth) : readLiteral? text = v := by
  obtain ⟨c, rest, hlist, hc⟩ := h.starts
  obtain ⟨ts, e, hderives, hvalue, hpasses⟩ := h.reads
  have hnot (d : Char) (hd : ¬ IsFlat d) : d ∉ text.toList := fun hmem => hd (h.flat d hmem)
  have hline : OneLine text.toList :=
    ⟨⟨c, rest, hlist, hc⟩, hnot '\n' (by decide), hnot '\r' (by decide)⟩
  have hwhole := hpasses [] ['\n'] (by simpa using hn) ⟨_, _, rfl, ends_newline⟩
  obtain ⟨us, t, u, hlex, hfaces, ht, hu⟩ := lex_of_passes hline (hnot '\x00' (by decide)) hwhole
  obtain ⟨f, hf, hshape⟩ : ∃ f, Derives anyCall us (.one (.rule .expression) f) ∧ f.SameShape e :=
    hderives.relocate hfaces
  have hsize : us.length ≤ text.toList.length + 1 := by
    have hlength : us.length = (faces ts).length := by rw [← hfaces, faces, List.length_map]
    rw [hlength]
    exact Nat.le_succ_of_le hwhole.size
  have hseveral : Derives anyCall us (.several (.rule .expression) f) :=
    .single hf fun hindex => absurd hindex (by decide)
  obtain ⟨g, hread, hshape'⟩ := readExpression?_of_derives hlex ht hu hseveral hsize
  have hblank : text.toList.dropWhile (fun c => decide (c = ' ') || decide (c = '\t'))
      = text.toList := by
    rw [hlist, List.dropWhile_cons_of_neg]
    simp [hc.1, hc.2.1]
  unfold readLiteral?
  simp only [hblank, hread, bind, Option.bind_some]
  rw [literal?_congr hshape', literal?_congr hshape, hvalue]

end Covenant.Wrapper
