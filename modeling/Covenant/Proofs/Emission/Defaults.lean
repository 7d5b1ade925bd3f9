import Covenant.Proofs.Emission.Values
import Covenant.Proofs.Value.ReadBack

/-! # Defaults — a default is copied, or the implementation has it

    A wrapper declares a default by the text of its value, if this reads as a
    literal, and otherwise by a placeholder; then its body asks the
    implementation for the default.

    * The text of every built value is written by the rules for values, and is
      read back if the value is clean (`exists_writes_spell`).  The brackets
      that this takes are those of `Datum.depth`.
    * So of the two ways exactly one supplies each default
      (`default_copied_or_deferred`). -/

namespace Covenant.Wrapper

open Text Token Grammar Signature Declaration Covenant.Tree Reader Value

variable {d : Datum} {items : List Datum} {value : Datum → Option Datum}

-- the equations of both functions are made here, once for all the proofs that rewrite with them
attribute [local simp] Datum.spell Datum.depth

/-! ## Texts of values -/

theorem toList_curly (ts : List String) :
    (Datum.curly ts).toList = bracketed .set (", ".intercalate ts).toList := by
  rw [Datum.curly, String.toList_append, String.toList_append, List.append_assoc]
  rfl

/-- A display of values, each of them written with as many brackets as it needs. -/
theorem writes_display (display : Display) {x : Datum} {xs : List Datum} {n : Nat}
    (h : ∀ d ∈ x :: xs, WritesValue d.depth d.spell.toList (value d))
    (hdepth : ∀ d ∈ x :: xs, d.depth ≤ n) (comma : Bool)
    (hmany : display = .tuple → 1 < (x :: xs).length ∨ comma = true) :
    WritesValue (n + 1)
      (bracketed display ((", ".intercalate ((x :: xs).map Datum.spell)).toList
        ++ lastCommaText comma))
      (((x :: xs).mapM value).bind (displayed? display)) :=
  (writesValues fun d hd => (h d hd).mono (hdepth d hd)).display display comma hmany

theorem writes_list (h : ∀ d ∈ items, WritesValue d.depth d.spell.toList (value d)) :
    WritesValue (Datum.list items).depth (Datum.list items).spell.toList
      ((items.mapM value).bind (displayed? .list)) := by
  have htext : (Datum.list items).spell.toList
      = bracketed .list (", ".intercalate (items.map Datum.spell)).toList := by
    rw [Datum.spell, Datum.spellAll_eq, String.toList_append, String.toList_append,
      List.append_assoc]
    rfl
  rw [htext, Datum.depth]
  cases items with
  | nil => exact (writesValue_empty .list).mono (Nat.le_add_left 1 _)
  | cons x xs =>
      have hdisplay := writes_display .list h (fun d hd => Datum.depth_le_deepest hd) false
        fun hlist => absurd hlist (by decide)
      rwa [lastCommaText, if_neg Bool.false_ne_true, List.append_nil] at hdisplay

/-- A tuple of one value needs a comma. -/
theorem writes_tuple (h : ∀ d ∈ items, WritesValue d.depth d.spell.toList (value d)) :
    WritesValue (Datum.tuple items).depth (Datum.tuple items).spell.toList
      ((items.mapM value).bind (displayed? .tuple)) := by
  rw [Datum.spell, Datum.spellAll_eq, Datum.depth]
  cases items with
  | nil => exact (writesValue_empty .tuple).mono (Nat.le_add_left 1 _)
  | cons x more =>
    cases more with
    | nil =>
      have hdisplay := writes_display .tuple h (fun d hd => Datum.depth_le_deepest hd) true
        fun _ => .inr rfl
      have htext : (Datum.tupleText [x.spell]).toList
          = bracketed .tuple ((", ".intercalate ([x].map Datum.spell)).toList ++ [',']) := by
        simp [Datum.tupleText, bracketed, Display.opener, Display.closer]
      rw [List.map_singleton, htext]
      exact hdisplay
    | cons y xs =>
      have hdisplay := writes_display .tuple h (fun d hd => Datum.depth_le_deepest hd) false
        fun _ => .inl (by simp)
      have htext : (Datum.tupleText ((x :: y :: xs).map Datum.spell)).toList
          = bracketed .tuple (", ".intercalate ((x :: y :: xs).map Datum.spell)).toList := by
        have hmany : ∀ t, (x :: y :: xs).map Datum.spell ≠ [t] := by simp
        rw [Datum.tupleText.eq_2 _ hmany, String.toList_append, String.toList_append,
          List.append_assoc]
        rfl
      rw [htext]
      rwa [lastCommaText, if_neg Bool.false_ne_true, List.append_nil] at hdisplay

/-- The items of a set between curly brackets. -/
theorem writes_curly {x : Datum} {xs : List Datum}
    (h : ∀ d ∈ x :: xs, WritesValue d.depth d.spell.toList (value d)) :
    WritesValue (Datum.deepest (x :: xs) + 1)
      (Datum.curly (Datum.spellSet (x :: xs))).toList
      (((Datum.setOrder Datum.small? (x :: xs)).mapM value).bind (displayed? .set)) := by
  rw [toList_curly, Datum.spellSet_eq]
  have hperm := Datum.setOrder_perm Datum.small? (x :: xs)
  cases horder : Datum.setOrder Datum.small? (x :: xs) with
  | nil =>
      rw [horder] at hperm
      exact absurd hperm.length_eq (by simp)
  | cons y ys =>
      rw [horder] at hperm
      have hdisplay := writes_display .set (fun d hd => h d (hperm.mem_iff.mp hd))
        (fun d hd => Datum.depth_le_deepest (hperm.mem_iff.mp hd)) false
        fun hset => absurd hset (by decide)
      rwa [lastCommaText, if_neg Bool.false_ne_true, List.append_nil] at hdisplay

theorem writes_set (h : ∀ d ∈ items, WritesValue d.depth d.spell.toList (value d)) :
    WritesValue (Datum.set items).depth (Datum.set items).spell.toList
      (((Datum.setOrder Datum.small? items).mapM value).bind (displayed? .set)) := by
  rw [Datum.depth]
  cases items with
  | nil =>
      have hcall : WritesValue 1 ("set".toList ++ bracketed .tuple []) (some (.set [])) :=
        writesValue_bareCall (by decide) (by decide)
      rw [Datum.spell, (Datum.setOrder_perm Datum.small? []).eq_nil]
      exact hcall.mono (Nat.le_add_left 1 _)
  | cons x xs =>
      rw [Datum.spell]
      · exact writes_curly h
      · exact fun hnil => absurd hnil (List.cons_ne_nil x xs)

/-- A frozen set is a call with a set, and no literal. -/
theorem writes_frozenset (h : ∀ d ∈ items, WritesValue d.depth d.spell.toList (value d)) :
    WritesValue (Datum.frozenset items).depth (Datum.frozenset items).spell.toList none := by
  cases items with
  | nil =>
      have hcall : WritesValue 1 ("frozenset".toList ++ bracketed .tuple []) none :=
        writesValue_bareCall (by decide) (by decide)
      rw [Datum.spell, Datum.depth]
      exact hcall
  | cons x xs =>
      have hcall : WritesValue _ ("frozenset".toList ++ bracketed .tuple _) none :=
        (writes_curly h).values.call (by decide) (by decide) (by decide)
      rw [Datum.spell, Datum.depth]
      · rw [String.toList_append, String.toList_append, List.append_assoc]
        exact hcall
      · exact fun hnil => absurd hnil (List.cons_ne_nil x xs)
      · exact fun hnil => absurd hnil (List.cons_ne_nil x xs)

theorem writes_dict {ps : List (Datum × Datum)}
    (h : ∀ p ∈ ps, WritesValue p.1.depth p.1.spell.toList (value p.1) ∧
      WritesValue p.2.depth p.2.spell.toList (value p.2)) :
    WritesValue (Datum.dict ps).depth (Datum.dict ps).spell.toList
      (((ps.map (·.1)).mapM value).bind fun ks =>
        ((ps.map (·.2)).mapM value).bind fun vs => mappingOf? ks vs []) := by
  rw [Datum.spell, Datum.spellItems_eq, Datum.depth, toList_curly]
  cases ps with
  | nil => exact (writesValue_empty .set).mono (Nat.le_add_left 1 _)
  | cons p ps =>
      refine (writesPairs fun q hq => ?_).mapping
      obtain ⟨hkey, hvalue⟩ := Datum.depth_le_deepestItem hq
      exact ⟨(h q hq).1.mono hkey, (h q hq).2.mono hvalue⟩

theorem writes_bytearray (bs : List UInt8) :
    WritesValue (Datum.bytearray bs).depth (Datum.bytearray bs).spell.toList none := by
  have hcall : WritesValue 1 ("bytearray".toList ++ bracketed .tuple (quoteBytes bs).toList) none :=
    (writesValue_quoteBytes bs).values.call (by decide) (by decide) (by decide)
  rw [Datum.spell, Datum.depth, String.toList_append, String.toList_append, List.append_assoc]
  exact hcall

/-- A range is a call with its bounds, and no literal; a step of one is not written. -/
theorem writes_range {start stop step : Int} (hstart : HasFewDigits start.natAbs)
    (hstop : HasFewDigits stop.natAbs) (hstep : HasFewDigits step.natAbs) :
    WritesValue (Datum.range start stop step).depth (Datum.range start stop step).spell.toList
      none := by
  have hcall {x : Int} {xs : List Int} (hxs : ∀ y ∈ x :: xs, HasFewDigits y.natAbs) :
      WritesValue 1 ("range".toList
        ++ bracketed .tuple (", ".intercalate ((x :: xs).map toString)).toList) none :=
    (writesValues fun y hy => writesValue_int (hxs y hy)).call (by decide) (by decide) (by decide)
  have hself (s : String) : toString s = s := rfl
  rw [Datum.spell, Datum.depth, Datum.rangeText]
  split_ifs
  · have htext : s!"range({start}, {stop})".toList = "range".toList
        ++ bracketed .tuple (", ".intercalate ([start, stop].map toString)).toList := by
      simp [hself, bracketed, Display.opener, Display.closer]
    rw [htext]
    exact hcall (by simp [hstart, hstop])
  · have htext : s!"range({start}, {stop}, {step})".toList = "range".toList
        ++ bracketed .tuple (", ".intercalate ([start, stop, step].map toString)).toList := by
      simp [hself, bracketed, Display.opener, Display.closer]
    rw [htext]
    exact hcall (by simp [hstart, hstop, hstep])

/-! ## Every value -/

/-- **WHAT IS SPELLED** is read back: the text of a value is an expression, which is a literal of
    an equal value if the value is clean, and otherwise none. -/
theorem exists_writes_spell (h : d.Built) :
    ∃ v, WritesValue d.depth d.spell.toList v ∧ ReadsBack d v := by
  -- the induction follows how the value is built; each collection asks what is written and what
  -- is read back of the values in it
  induction h with
  | none =>
      rw [Datum.spell]
      exact ⟨_, (writesValue_word rfl (by decide) (by decide)).mono (Nat.zero_le _),
        readsBack_self rfl rfl (by simp [Datum.same])⟩
  | ellipsis =>
      rw [Datum.spell]
      exact ⟨_, (writesValue_name (by decide) (by decide)).mono (Nat.zero_le _),
        readsBack_none rfl⟩
  | bool b =>
      rw [Datum.spell]
      cases b
      · exact ⟨_, (writesValue_word rfl (by decide) (by decide)).mono (Nat.zero_le _),
          readsBack_self rfl rfl (Datum.same_bool _)⟩
      · exact ⟨_, (writesValue_word rfl (by decide) (by decide)).mono (Nat.zero_le _),
          readsBack_self rfl rfl (Datum.same_bool _)⟩
  | int hdigits =>
      rw [Datum.spell]
      exact ⟨_, (writesValue_int hdigits).mono (Nat.zero_le _),
        readsBack_self rfl rfl (Datum.same_int _)⟩
  | str s =>
      rw [Datum.spell]
      exact ⟨_, (writesValue_quote s).mono (Nat.zero_le _),
        readsBack_self rfl rfl (by simp [Datum.same])⟩
  | bytes bs =>
      rw [Datum.spell]
      exact ⟨_, (writesValue_quoteBytes bs).mono (Nat.zero_le _),
        readsBack_self rfl rfl (by simp [Datum.same])⟩
  | bytearray bs => exact ⟨_, writes_bytearray bs, readsBack_none rfl⟩
  | list _ ih =>
      choose! value hwrites hreads using ih
      exact ⟨_, writes_list hwrites, readsBack_list hreads⟩
  | tuple _ ih =>
      choose! value hwrites hreads using ih
      exact ⟨_, writes_tuple hwrites, readsBack_tuple hreads⟩
  | set hbuilt hkeys hapart ih =>
      choose! value hwrites hreads using ih
      exact ⟨_, writes_set hwrites,
        readsBack_set (Datum.setOrder_perm _ _) hbuilt hkeys hapart hreads⟩
  | frozenset _ _ _ ih =>
      choose! value hwrites hreads using ih
      exact ⟨_, writes_frozenset hwrites, readsBack_none rfl⟩
  | @dict ps _ _ hkeys hapart ihKeys ihValues =>
      have ih : ∀ d ∈ (Datum.dict ps).parts,
          ∃ v, WritesValue d.depth d.spell.toList v ∧ ReadsBack d v :=
        List.forall_mem_append.mpr ⟨List.forall_mem_map.mpr ihKeys, List.forall_mem_map.mpr ihValues⟩
      choose! value hwrites hreads using ih
      obtain ⟨hkeysWritten, hvaluesWritten⟩ := List.forall_mem_append.mp hwrites
      obtain ⟨hkeysRead, hvaluesRead⟩ := List.forall_mem_append.mp hreads
      rw [List.forall_mem_map] at hkeysWritten hvaluesWritten hkeysRead hvaluesRead
      exact ⟨_, writes_dict fun p hp => ⟨hkeysWritten p hp, hvaluesWritten p hp⟩,
        readsBack_dict hkeys hapart fun p hp => ⟨hkeysRead p hp, hvaluesRead p hp⟩⟩
  | range hstart hstop hstep =>
      exact ⟨_, writes_range hstart hstop hstep, readsBack_none rfl⟩

/-! ## Parameters -/

/-- A parameter as it is declared with a text for its default. -/
def declaredWith (p : Parameter Datum) (text : String) : String :=
  starsOf p.kind ++ p.name ++ hintText p
    ++ ((if (present p.typeText).isSome then " = " else "=") ++ text)

theorem parameterText_of_optional {p : Parameter Datum} {placeholder : String}
    (hoptional : p.kind.isOptional = true) (hplaceholder : placeholder ≠ "") :
    parameterText (some placeholder) p
      = declaredWith p (if hasLiteralDefault p then defaultText p else placeholder) := by
  have hpresent : present (some placeholder) = some placeholder := by
    unfold present
    split
    · rename_i heq
      exact absurd (Option.some.inj heq) hplaceholder
    · rfl
  unfold parameterText declaredWith
  rw [hpresent, hoptional]
  rfl

/-- The declaration supplies the default: it has a text that reads as an equal value. -/
def CopiesDefault (placeholder : String) (p : Parameter Datum) (d : Datum) : Prop :=
  parameterText (some placeholder) p = declaredWith p (defaultText p) ∧
    ∃ d', readLiteral? (defaultText p) = some d' ∧ d.same d' = true

/-- The wrapper asks the implementation for the default: the declaration has the placeholder, and
    the body resolves what is deferred. -/
def DefersDefault (placeholder : String) (w : Descriptor Datum) (p : Parameter Datum) : Prop :=
  parameterText (some placeholder) p = declaredWith p placeholder ∧
    p ∈ w.signature.deferredDefaults ∧ .resolveDefault p.name ∈ w.body

theorem resolveDefault_not_mem_protocol (w : Descriptor Datum) (name : String) :
    .resolveDefault name ∉ w.protocol := by
  intro h
  obtain ⟨step, -, h⟩ := List.mem_flatMap.mp h
  cases step with
  | answer =>
      rw [Descriptor.statementsOf] at h
      split_ifs at h <;> simp at h
  | _ => simp [Descriptor.statementsOf] at h

/-- What the body resolves is what the signature defers. -/
theorem resolveDefault_mem_body {w : Descriptor Datum} {name : String} :
    .resolveDefault name ∈ w.body ↔ ∃ p ∈ w.signature.deferredDefaults, p.name = name := by
  have hinstance : .resolveDefault name ∉ if w.isFactory then [Statement.makeInstance] else [] := by
    split_ifs <;> simp
  simp [Descriptor.body, hinstance, resolveDefault_not_mem_protocol]

theorem mem_deferredDefaults {s : Signature Datum} {p : Parameter Datum} :
    p ∈ s.deferredDefaults
      ↔ p ∈ s.declaration ∧ p.kind.isOptional = true ∧ hasLiteralDefault p = false := by
  rw [deferredDefaults, List.mem_filter, Bool.and_eq_true, Bool.not_eq_true']

/-- **DEFAULTS** are copied or deferred. -/
theorem default_copied_or_deferred {p : Parameter Datum} {d : Datum}
    (hoptional : p.kind.isOptional = true) (htext : p.defaultText = none)
    (hdefault : p.default = some d) (hbuilt : d.Built) (hdepth : d.depth ≤ maxDepth) :
    (hasLiteralDefault p = true ↔ d.IsClean) ∧
    (d.IsClean → ∃ d', readLiteral? (defaultText p) = some d' ∧ d.same d' = true) ∧
    ∀ placeholder : String, placeholder ≠ "" →
      (¬ d.IsClean → parameterText (some placeholder) p = declaredWith p placeholder) ∧
      ∀ w : Descriptor Datum, p ∈ w.signature.declaration →
        (p ∈ w.signature.deferredDefaults ↔ ¬ d.IsClean) ∧
        Xor (CopiesDefault placeholder p d) (DefersDefault placeholder w p) ∧
        ((∀ q ∈ w.signature.declaration, q.name = p.name → q = p) →
          (.resolveDefault p.name ∈ w.body ↔ ¬ d.IsClean)) := by
  obtain ⟨v, hwrites, hreads⟩ := exists_writes_spell hbuilt
  have hspell : defaultText p = d.spell := by
    unfold defaultText
    rw [htext, hdefault]
  have hvalue : readLiteral? (defaultText p) = v := hspell ▸ hwrites.readLiteral?_eq hdepth
  have hliteral : hasLiteralDefault p = true ↔ d.IsClean := by
    rw [hasLiteralDefault, hvalue]
    constructor
    · intro hsome
      by_contra hforeign
      rw [hreads.other hforeign] at hsome
      exact nomatch hsome
    · intro hclean
      obtain ⟨d', hd', -⟩ := hreads.clean hclean
      rw [hd']
      rfl
  have hequal : d.IsClean → ∃ d', readLiteral? (defaultText p) = some d' ∧ d.same d' = true := by
    intro hclean
    obtain ⟨d', hd', hsame, -⟩ := hreads.clean hclean
    exact ⟨d', hvalue.trans hd', hsame⟩
  refine ⟨hliteral, hequal, fun placeholder hplaceholder => ?_⟩
  have hdeclared := parameterText_of_optional hoptional hplaceholder
  have hunset (hforeign : ¬ d.IsClean) :
      parameterText (some placeholder) p = declaredWith p placeholder := by
    rw [hdeclared, if_neg (mt hliteral.mp hforeign)]
  refine ⟨hunset, fun w hp => ?_⟩
  have hdeferred : p ∈ w.signature.deferredDefaults ↔ ¬ d.IsClean := by
    rw [mem_deferredDefaults, ← hliteral, Bool.not_eq_true]
    exact ⟨fun h => h.2.2, fun h => ⟨hp, hoptional, h⟩⟩
  refine ⟨hdeferred, ?_, fun hunique => ?_⟩
  · by_cases hclean : d.IsClean
    · refine .inl ⟨⟨?_, hequal hclean⟩, fun hdefers => hdeferred.mp hdefers.2.1 hclean⟩
      rw [hdeclared, if_pos (hliteral.mpr hclean)]
    · have hmem := hdeferred.mpr hclean
      refine .inr ⟨⟨hunset hclean, hmem, resolveDefault_mem_body.2 ⟨p, hmem, rfl⟩⟩, ?_⟩
      rintro ⟨-, d', hd', -⟩
      rw [hvalue, hreads.other hclean] at hd'
      exact nomatch hd'
  · rw [resolveDefault_mem_body, ← hdeferred]
    constructor
    · rintro ⟨q, hq, hname⟩
      exact hunique q (mem_deferredDefaults.1 hq).1 hname ▸ hq
    · exact fun hmem => ⟨p, hmem, rfl⟩

/-- A mapping with a tuple of one negative number and with bytes as a key. -/
def nestedDefault : Datum :=
  .dict [(.str "it's", .tuple [.int (-1)]), (.bytes [0, 39], .set [.int 2, .bool false])]

theorem built_nestedDefault : nestedDefault.Built := by
  refine .dict ?_ ?_ (by decide) (by simp [Datum.same, Datum.isNumber])
  · simp only [List.forall_mem_cons]
    exact ⟨.str _, .bytes _, List.forall_mem_nil _⟩
  · have hset : (Datum.set [.int 2, .bool false]).Built := by
      refine .set ?_ (by decide) (by simp [Datum.same, Datum.isNumber, Datum.sameNumber,
        Datum.ratio?, Datum.sameRatio])
      simp only [List.forall_mem_cons]
      exact ⟨.int (by decide), .bool _, List.forall_mem_nil _⟩
    simp only [List.forall_mem_cons]
    exact ⟨.tuple (List.forall_mem_singleton.mpr (.int (by decide))), hset, List.forall_mem_nil _⟩

theorem isClean_nestedDefault : nestedDefault.IsClean := by
  have hleaf {d : Datum} := Datum.isClean_of_parts (d := d)
  have htuple : (Datum.tuple [.int (-1)]).IsClean :=
    Datum.isClean_iff.mpr ⟨rfl, List.forall_mem_singleton.mpr (hleaf rfl rfl)⟩
  have hset : (Datum.set [.int 2, .bool false]).IsClean := by
    refine Datum.isClean_iff.mpr ⟨rfl, ?_⟩
    simp only [Datum.parts, List.forall_mem_cons]
    exact ⟨hleaf rfl rfl, hleaf rfl rfl, nofun⟩
  refine Datum.isClean_iff.mpr ⟨rfl, ?_⟩
  simp only [nestedDefault, Datum.parts, List.map_cons, List.map_nil, List.cons_append,
    List.nil_append, List.forall_mem_cons]
  exact ⟨hleaf rfl rfl, hleaf rfl rfl, htuple, hset, nofun⟩

/-- A list whose tuple holds a frozen set. -/
def foreignDefault : Datum := .list [.none, .tuple [.frozenset [.int 1]]]

theorem built_foreignDefault : foreignDefault.Built := by
  have hfrozen : (Datum.frozenset [.int 1]).Built :=
    .frozenset (List.forall_mem_singleton.mpr (.int (by decide))) (by decide)
      (List.pairwise_singleton _ _)
  refine .list ?_
  simp only [List.forall_mem_cons]
  exact ⟨.none, .tuple (List.forall_mem_singleton.mpr hfrozen), nofun⟩

theorem not_isClean_foreignDefault : ¬ foreignDefault.IsClean := by
  intro h
  have htuple : (Datum.tuple [.frozenset [.int 1]]).IsClean :=
    (Datum.isClean_iff.mp h).2 _ (List.mem_cons_of_mem _ List.mem_cons_self)
  have hfrozen : (Datum.frozenset [.int 1]).IsClean :=
    (Datum.isClean_iff.mp htuple).2 _ List.mem_cons_self
  exact Datum.not_isClean _ rfl hfrozen

/-- A parameter by name with a default. -/
def optionalParameter (d : Datum) : Parameter Datum :=
  { name := "options", kind := .optionalNamed, default := some d }

/-- The nested mapping is copied, and the list with a frozen set is deferred. -/
theorem default_copied_or_deferred_nested :
    (∃ d', readLiteral? (defaultText (optionalParameter nestedDefault)) = some d' ∧
      nestedDefault.same d' = true) ∧
    ∀ w : Descriptor Datum, optionalParameter foreignDefault ∈ w.signature.declaration →
      DefersDefault placeholder w (optionalParameter foreignDefault) := by
  obtain ⟨-, hequal, -⟩ := default_copied_or_deferred (p := optionalParameter nestedDefault)
    rfl rfl rfl built_nestedDefault (by decide)
  refine ⟨hequal isClean_nestedDefault, fun w hw => ?_⟩
  obtain ⟨hliteral, -, hmechanisms⟩ :=
    default_copied_or_deferred (p := optionalParameter foreignDefault) rfl rfl rfl
      built_foreignDefault (by decide)
  obtain ⟨-, hexactly, -⟩ := (hmechanisms placeholder (by decide)).2 w hw
  rcases hexactly with ⟨⟨-, d', hd', -⟩, -⟩ | ⟨hdefers, -⟩
  · have hsome : hasLiteralDefault (optionalParameter foreignDefault) = true := by
      rw [hasLiteralDefault, hd']
      rfl
    exact absurd (hliteral.mp hsome) not_isClean_foreignDefault
  · exact hdefers

end Covenant.Wrapper
