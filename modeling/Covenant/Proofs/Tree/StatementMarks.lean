import Covenant.Proofs.Tree.Marks

/-! # Marks of statements — the walks meet the same nodes below statements too

    A statement's tree is walked by layers or part by part.  The walks differ
    in their order only, and what either of them marks is what the test finds
    at the expressions of the statement.  The laws follow the constructors of
    patterns and statements, as those of expressions do. -/

namespace Covenant.Tree

variable {α : Type} {mark : Expr → Option α} {x : α}

theorem mem_besidesAll_append (forests more : List (List (List α))) :
    x ∈ (besidesAll (forests ++ more)).flatten ↔
      x ∈ (besidesAll forests).flatten ∨ x ∈ (besidesAll more).flatten := by
  induction forests with
  | nil => simp [besidesAll]
  | cons f fs ih => simp only [List.cons_append, besidesAll, mem_flatten_besides, ih, or_assoc]

/-- Forests that carry the marks of some parts carry them side by side, too. -/
theorem mem_besidesAll_map {β : Type} {forest : β → List (List α)} {marks : β → List α}
    (h : ∀ b, x ∈ (forest b).flatten ↔ x ∈ marks b) (parts : List β) :
    x ∈ (besidesAll (parts.map forest)).flatten ↔ x ∈ parts.flatMap marks := by
  induction parts with
  | nil => rfl
  | cons b bs ih =>
    simp only [List.map_cons, besidesAll, mem_flatten_besides, List.flatMap_cons,
      List.mem_append, h, ih]

theorem mem_layersOption (e : Option Expr) :
    x ∈ (layersOption mark e).flatten ↔ x ∈ preorderOption mark e := by
  cases e with
  | none => rfl
  | some e => exact mem_layers e

/-- A layer without marks changes nothing. -/
theorem mem_flatten_below_nil (layers : List (List α)) :
    x ∈ (below [] layers).flatten ↔ x ∈ layers.flatten := by
  rw [mem_flatten_below, or_iff_right List.not_mem_nil]

theorem mem_formal_layers (f : Formal) :
    x ∈ (f.layers mark).flatten ↔ x ∈ preorderOption mark f.hint := by
  rw [Formal.layers, mem_flatten_below_nil, mem_layersOption]

theorem mem_formals_layers (f : Formals) :
    x ∈ (f.layers mark).flatten ↔ x ∈ f.preorder mark := by
  have hints (ps : List Formal) : x ∈ (besidesAll (ps.map (Formal.layers mark))).flatten ↔
      x ∈ ps.flatMap fun p => preorderOption mark p.hint :=
    mem_besidesAll_map mem_formal_layers ps
  have named : x ∈ (besidesAll (f.named.map fun p => p.1.layers mark)).flatten ↔
      x ∈ (f.named.map (·.1)).flatMap fun p => preorderOption mark p.hint := by
    rw [← hints, List.map_map]
    rfl
  have defaults : x ∈ (besidesAll (f.named.map fun p => layersOption mark p.2)).flatten ↔
      x ∈ f.named.flatMap fun p => preorderOption mark p.2 :=
    mem_besidesAll_map (fun p => mem_layersOption p.2) f.named
  rw [Formals.layers, mem_flatten_below_nil, mem_besidesAll_append, mem_besidesAll_append,
    mem_besidesAll_append, mem_besidesAll_append, hints, named, defaults, hints]
  simp only [Formals.preorder, besidesAll, mem_flatten_besides, List.flatten_nil,
    List.not_mem_nil, or_false, List.flatMap_append, List.mem_append, mem_layersAll]

mutual

theorem mem_pattern_layers :
    (p : Pattern) → (x ∈ (p.layers mark).flatten ↔ x ∈ p.preorder mark)
  | .value e | .singleton e => by
      simp only [Pattern.layers, Pattern.preorder, mem_flatten_below_nil, mem_layers e]
  | .sequence ps | .or ps => by
      simp only [Pattern.layers, Pattern.preorder, mem_flatten_below_nil, mem_layersPatterns ps]
  | .mapping ks ps _ => by
      simp only [Pattern.layers, Pattern.preorder, mem_flatten_below_nil, mem_flatten_besides,
        List.mem_append, mem_layersAll ks, mem_layersPatterns ps]
  | .cls f ps _ ks => by
      simp only [Pattern.layers, Pattern.preorder, mem_flatten_below_nil, mem_flatten_besides,
        List.mem_append, mem_layers f, mem_layersPatterns ps, mem_layersPatterns ks, or_assoc]
  | .star _ | .as none _ => by
      simp [Pattern.layers, Pattern.preorder]
  | .as (some p) _ => by
      simp only [Pattern.layers, Pattern.preorder, mem_flatten_below_nil, mem_pattern_layers p]

theorem mem_layersPatterns :
    (ps : List Pattern) → (x ∈ (layersPatterns mark ps).flatten ↔ x ∈ preorderPatterns mark ps)
  | [] => Iff.rfl
  | p :: ps => by
      simp only [layersPatterns, preorderPatterns, mem_flatten_besides, List.mem_append,
        mem_pattern_layers p, mem_layersPatterns ps]

end

/-- The items of a `with` statement. -/
theorem mem_layers_items (items : List (Expr × Option Expr)) :
    x ∈ (besidesAll (items.map fun i =>
      below [] (besides (i.1.layers mark) (layersOption mark i.2)))).flatten ↔
      x ∈ items.flatMap (fun i => i.1.preorder mark ++ preorderOption mark i.2) :=
  mem_besidesAll_map (fun i => by
    rw [mem_flatten_below_nil, mem_flatten_besides, List.mem_append, mem_layers,
      mem_layersOption]) items

mutual

theorem mem_statement_layers :
    (s : Stmt) → (x ∈ (s.layers mark).flatten ↔ x ∈ s.preorder mark)
  | .function h b => by
      simp only [Stmt.layers, Stmt.preorder, mem_flatten_below_nil, besidesAll,
        mem_flatten_besides, List.flatten_nil, List.not_mem_nil, or_false,
        List.mem_append, mem_formals_layers, mem_layersBlock b, mem_layersAll, mem_layersOption,
        or_assoc]
  | .cls h b => by
      simp only [Stmt.layers, Stmt.preorder, mem_flatten_below_nil, besidesAll,
        mem_flatten_besides, List.flatten_nil, List.not_mem_nil, or_false,
        List.mem_append, mem_layersKeywords, mem_layersBlock b, mem_layersAll, or_assoc]
  | .ret v => by
      simp only [Stmt.layers, Stmt.preorder, mem_flatten_below_nil, mem_layersOption]
  | .delete ts => by
      simp only [Stmt.layers, Stmt.preorder, mem_flatten_below_nil, mem_layersAll]
  | .assign ts v => by
      simp only [Stmt.layers, Stmt.preorder, mem_flatten_below_nil, mem_flatten_besides,
        List.mem_append, mem_layersAll, mem_layers]
  | .update t _ v => by
      simp only [Stmt.layers, Stmt.preorder, mem_flatten_below_nil, mem_flatten_besides,
        List.mem_append, mem_layers]
  | .annotated t a v => by
      simp only [Stmt.layers, Stmt.preorder, mem_flatten_below_nil, besidesAll,
        mem_flatten_besides, List.flatten_nil, List.not_mem_nil, or_false,
        List.mem_append, mem_layers, mem_layersOption, or_assoc]
  | .forEach _ t i b o => by
      simp only [Stmt.layers, Stmt.preorder, mem_flatten_below_nil, besidesAll,
        mem_flatten_besides, List.flatten_nil, List.not_mem_nil, or_false,
        List.mem_append, mem_layers, mem_layersBlock b, mem_layersBlock o, or_assoc]
  | .loop t b o | .branch t b o => by
      simp only [Stmt.layers, Stmt.preorder, mem_flatten_below_nil, besidesAll,
        mem_flatten_besides, List.flatten_nil, List.not_mem_nil, or_false,
        List.mem_append, mem_layers, mem_layersBlock b, mem_layersBlock o, or_assoc]
  | .within _ items b => by
      simp only [Stmt.layers, Stmt.preorder, mem_flatten_below_nil, mem_flatten_besides,
        List.mem_append, mem_layers_items, mem_layersBlock b]
  | .select s cs => by
      simp only [Stmt.layers, Stmt.preorder, mem_flatten_below_nil, mem_flatten_besides,
        List.mem_append, mem_layers, mem_layersCases cs]
  | .raising e c => by
      simp only [Stmt.layers, Stmt.preorder, mem_flatten_below_nil, mem_flatten_besides,
        List.mem_append, mem_layersOption]
  | .attempt b hs o f => by
      simp only [Stmt.layers, Stmt.preorder, mem_flatten_below_nil, besidesAll,
        mem_flatten_besides, List.flatten_nil, List.not_mem_nil, or_false,
        List.mem_append, mem_layersBlock b, mem_layersHandlers hs, mem_layersBlock o,
        mem_layersBlock f, or_assoc]
  | .assertion t m => by
      simp only [Stmt.layers, Stmt.preorder, mem_flatten_below_nil, mem_flatten_besides,
        List.mem_append, mem_layers, mem_layersOption]
  | .importing _ | .importingFrom .. | .declareGlobal _ | .declareNonlocal _
  | .pass | .leave | .again => by
      simp [Stmt.layers, Stmt.preorder]
  | .expr v => by
      simp only [Stmt.layers, Stmt.preorder, mem_flatten_below_nil, mem_layers]

theorem mem_layersBlock :
    (b : List Stmt) → (x ∈ (layersBlock mark b).flatten ↔ x ∈ preorderBlock mark b)
  | [] => Iff.rfl
  | s :: ss => by
      simp only [layersBlock, preorderBlock, mem_flatten_besides, List.mem_append,
        mem_statement_layers s, mem_layersBlock ss]

theorem mem_layersCases :
    (cs : List Case) → (x ∈ (layersCases mark cs).flatten ↔ x ∈ preorderCases mark cs)
  | [] => Iff.rfl
  | .mk p g b :: cs => by
      simp only [layersCases, preorderCases, mem_flatten_besides, mem_flatten_below_nil,
        besidesAll, List.flatten_nil, List.not_mem_nil, or_false, List.mem_append,
        mem_pattern_layers, mem_layersOption,
        mem_layersBlock b, mem_layersCases cs, or_assoc]

theorem mem_layersHandlers :
    (hs : List Handler) → (x ∈ (layersHandlers mark hs).flatten ↔ x ∈ preorderHandlers mark hs)
  | [] => Iff.rfl
  | .mk t _ b :: hs => by
      simp only [layersHandlers, preorderHandlers, mem_flatten_besides, mem_flatten_below_nil,
        List.mem_append, mem_layersOption, mem_layersBlock b, mem_layersHandlers hs, or_assoc]

end

/-! ## Nodes -/

/-- The expressions of a statement, each with those below it. -/
def Stmt.nodes (s : Stmt) : List Expr := s.preorder some

/-- The marks of an expression are those of the expressions below it. -/
theorem expression_eq_filterMap (e : Expr) :
    e.preorder mark = (e.preorder some).filterMap mark :=
  preorder_eq_filterMap e

theorem preorderOption_eq_filterMap (e : Option Expr) :
    preorderOption mark e = (preorderOption some e).filterMap mark := by
  cases e with
  | none => rfl
  | some e => exact preorder_eq_filterMap e

theorem formals_eq_filterMap (f : Formals) :
    f.preorder mark = (f.preorder some).filterMap mark := by
  simp only [Formals.preorder, List.filterMap_append, List.filterMap_flatMap,
    ← preorderOption_eq_filterMap, ← preorderAll_eq_filterMap]

mutual

theorem pattern_eq_filterMap :
    (p : Pattern) → p.preorder mark = (p.preorder some).filterMap mark
  | .value e | .singleton e => preorder_eq_filterMap e
  | .sequence ps | .or ps => by
      simp only [Pattern.preorder]
      exact patterns_eq_filterMap ps
  | .mapping ks ps _ => by
      simp only [Pattern.preorder, List.filterMap_append, ← preorderAll_eq_filterMap,
        ← patterns_eq_filterMap ps]
  | .cls f ps _ ks => by
      simp only [Pattern.preorder, List.filterMap_append, ← expression_eq_filterMap f,
        ← patterns_eq_filterMap ps, ← patterns_eq_filterMap ks]
  | .star _ | .as none _ => rfl
  | .as (some p) _ => pattern_eq_filterMap p

theorem patterns_eq_filterMap :
    (ps : List Pattern) → preorderPatterns mark ps = (preorderPatterns some ps).filterMap mark
  | [] => rfl
  | p :: ps => by
      simp only [preorderPatterns, List.filterMap_append, ← pattern_eq_filterMap p,
        ← patterns_eq_filterMap ps]

end

mutual

/-- The marks of a statement are those of its nodes. -/
theorem statement_eq_filterMap : (s : Stmt) → s.preorder mark = (s.preorder some).filterMap mark
  | .function h b => by
      simp only [Stmt.preorder, List.filterMap_append, ← formals_eq_filterMap,
        ← block_eq_filterMap b, ← preorderAll_eq_filterMap, ← preorderOption_eq_filterMap]
  | .cls h b => by
      simp only [Stmt.preorder, List.filterMap_append, ← block_eq_filterMap b,
        ← preorderAll_eq_filterMap, ← preorderKeywords_eq_filterMap]
  | .ret v => preorderOption_eq_filterMap v
  | .delete ts => preorderAll_eq_filterMap ts
  | .assign ts v => by
      simp only [Stmt.preorder, List.filterMap_append, ← preorderAll_eq_filterMap,
        ← expression_eq_filterMap v]
  | .update t _ v => by
      simp only [Stmt.preorder, List.filterMap_append, ← expression_eq_filterMap t,
        ← expression_eq_filterMap v]
  | .annotated t a v => by
      simp only [Stmt.preorder, List.filterMap_append, ← expression_eq_filterMap t,
        ← expression_eq_filterMap a, ← preorderOption_eq_filterMap]
  | .forEach _ t i b o => by
      simp only [Stmt.preorder, List.filterMap_append, ← expression_eq_filterMap t,
        ← expression_eq_filterMap i, ← block_eq_filterMap b, ← block_eq_filterMap o]
  | .loop t b o | .branch t b o => by
      simp only [Stmt.preorder, List.filterMap_append, ← expression_eq_filterMap t,
        ← block_eq_filterMap b, ← block_eq_filterMap o]
  | .within _ items b => by
      simp only [Stmt.preorder, List.filterMap_append, List.filterMap_flatMap,
        ← expression_eq_filterMap, ← preorderOption_eq_filterMap, ← block_eq_filterMap b]
  | .select s cs => by
      simp only [Stmt.preorder, List.filterMap_append, ← expression_eq_filterMap s,
        ← cases_eq_filterMap cs]
  | .raising e c => by
      simp only [Stmt.preorder, List.filterMap_append, ← preorderOption_eq_filterMap]
  | .attempt b hs o f => by
      simp only [Stmt.preorder, List.filterMap_append, ← block_eq_filterMap b,
        ← handlers_eq_filterMap hs, ← block_eq_filterMap o, ← block_eq_filterMap f]
  | .assertion t m => by
      simp only [Stmt.preorder, List.filterMap_append, ← expression_eq_filterMap t,
        ← preorderOption_eq_filterMap]
  | .importing _ | .importingFrom .. | .declareGlobal _ | .declareNonlocal _
  | .pass | .leave | .again => by
      simp only [Stmt.preorder, List.filterMap_nil]
  | .expr v => preorder_eq_filterMap v

theorem block_eq_filterMap :
    (b : List Stmt) → preorderBlock mark b = (preorderBlock some b).filterMap mark
  | [] => rfl
  | s :: ss => by
      simp only [preorderBlock, List.filterMap_append, ← statement_eq_filterMap s,
        ← block_eq_filterMap ss]

theorem cases_eq_filterMap :
    (cs : List Case) → preorderCases mark cs = (preorderCases some cs).filterMap mark
  | [] => rfl
  | .mk p g b :: cs => by
      simp only [preorderCases, List.filterMap_append, ← pattern_eq_filterMap,
        ← preorderOption_eq_filterMap, ← block_eq_filterMap b, ← cases_eq_filterMap cs]

theorem handlers_eq_filterMap :
    (hs : List Handler) → preorderHandlers mark hs = (preorderHandlers some hs).filterMap mark
  | [] => rfl
  | .mk t _ b :: hs => by
      simp only [preorderHandlers, List.filterMap_append, ← preorderOption_eq_filterMap,
        ← block_eq_filterMap b, ← handlers_eq_filterMap hs]

end

/-- **A STATEMENT'S MARKS ARE THOSE OF ITS NODES**: the walk by layers marks what the test
    finds at some expression of the statement. -/
theorem mem_statement_marks (s : Stmt) :
    x ∈ s.marks mark ↔ ∃ e ∈ s.nodes, mark e = some x := by
  rw [Stmt.marks, mem_statement_layers, statement_eq_filterMap, List.mem_filterMap, Stmt.nodes]

end Covenant.Tree
