import Covenant.Tree.Layers
import Covenant.Tree.Preorder

/-! # Marks — two walks meet the same nodes

    The breadth-first walk and the walk from the root down differ in their
    order only.  Each law follows the constructors of the trees. -/

namespace Covenant.Tree

variable {α : Type} {mark : Expr → Option α} {x : α}

/-- A layer more on top adds the marks of that layer. -/
theorem mem_flatten_below (top : List α) (layers : List (List α)) :
    x ∈ (below top layers).flatten ↔ x ∈ top ∨ x ∈ layers.flatten := by
  unfold below
  rw [List.flatten_cons, List.mem_append]

mutual

theorem mem_layers : (e : Expr) → (x ∈ (e.layers mark).flatten ↔ x ∈ e.preorder mark)
  | .name .. | .constant .. => by
      simp [Expr.layers, Expr.preorder]
  | .field _ v _ _ => by
      simp only [Expr.layers, Expr.preorder, mem_flatten_below, List.mem_append, mem_layers v]
  | .call _ f as ks => by
      simp only [Expr.layers, Expr.preorder, mem_flatten_below, mem_flatten_besides,
        List.mem_append, mem_layers f, mem_layersAll as, mem_layersKeywords ks, or_assoc]
  | .lambda _ _ kd ds e => by
      simp only [Expr.layers, Expr.preorder, mem_flatten_below, mem_flatten_besides,
        List.mem_append, mem_layersAll kd, mem_layersAll ds, mem_layers e, List.not_mem_nil,
        false_or, or_assoc]
  | .comprehension _ _ es gs => by
      simp only [Expr.layers, Expr.preorder, mem_flatten_below, mem_flatten_besides,
        List.mem_append, mem_layersAll es, mem_layersGenerators gs, or_assoc]
  | .compound _ _ ps => by
      simp only [Expr.layers, Expr.preorder, mem_flatten_below, List.mem_append, mem_layersAll ps]

theorem mem_layersAll :
    (es : List Expr) → (x ∈ (layersAll mark es).flatten ↔ x ∈ preorderAll mark es)
  | [] => Iff.rfl
  | e :: es => by
      simp only [layersAll, preorderAll, mem_flatten_besides, List.mem_append, mem_layers e,
        mem_layersAll es]

theorem mem_layersKeywords :
    (ks : List Keyword) → (x ∈ (layersKeywords mark ks).flatten ↔ x ∈ preorderKeywords mark ks)
  | [] => Iff.rfl
  | .mk _ _ v :: ks => by
      simp only [layersKeywords, preorderKeywords, mem_flatten_besides, mem_flatten_below,
        List.mem_append, mem_layers v, mem_layersKeywords ks, List.not_mem_nil, false_or]

theorem mem_layersGenerators :
    (gs : List Generator) →
      (x ∈ (layersGenerators mark gs).flatten ↔ x ∈ preorderGenerators mark gs)
  | [] => Iff.rfl
  | .mk t i fs _ :: gs => by
      simp only [layersGenerators, preorderGenerators, mem_flatten_besides, mem_flatten_below,
        List.mem_append, mem_layers t, mem_layers i, mem_layersAll fs, mem_layersGenerators gs,
        List.not_mem_nil, false_or, or_assoc]

end

/-- **BOTH WALKS MEET THE SAME NODES**. -/
theorem mem_marks (e : Expr) : x ∈ e.marks mark ↔ x ∈ e.preorder mark := mem_layers e

/-! ## Nodes -/

/-- The nodes of a tree, itself the first one. -/
def Expr.nodes (e : Expr) : List Expr := e.preorder some

/-- The first node of a list is marked before the others. -/
theorem filterMap_toList_append (e : Expr) (es : List Expr) :
    ((some e).toList ++ es).filterMap mark = (mark e).toList ++ es.filterMap mark := by
  show (e :: es).filterMap mark = _
  rw [List.filterMap_cons]
  cases mark e <;> rfl

mutual

/-- The marks of a tree are those of its nodes. -/
theorem preorder_eq_filterMap : (e : Expr) → e.preorder mark = e.nodes.filterMap mark
  | .name s id a => by
      rw [Expr.preorder, Expr.nodes, Expr.preorder, ← List.append_nil (some _).toList,
        filterMap_toList_append]
      exact (List.append_nil _).symm
  | .constant s c => by
      rw [Expr.preorder, Expr.nodes, Expr.preorder, ← List.append_nil (some _).toList,
        filterMap_toList_append]
      exact (List.append_nil _).symm
  | .field _ v _ _ => by
      rw [Expr.preorder, Expr.nodes, Expr.preorder, filterMap_toList_append,
        preorder_eq_filterMap v]
      rfl
  | .call _ f as ks => by
      rw [Expr.preorder, Expr.nodes, Expr.preorder, List.append_assoc, List.append_assoc,
        List.append_assoc, List.append_assoc, filterMap_toList_append, List.filterMap_append,
        List.filterMap_append, preorder_eq_filterMap f, preorderAll_eq_filterMap as,
        preorderKeywords_eq_filterMap ks]
      rfl
  | .lambda _ _ kd ds e => by
      rw [Expr.preorder, Expr.nodes, Expr.preorder, List.append_assoc, List.append_assoc,
        List.append_assoc, List.append_assoc, filterMap_toList_append, List.filterMap_append,
        List.filterMap_append, preorder_eq_filterMap e, preorderAll_eq_filterMap kd,
        preorderAll_eq_filterMap ds]
      rfl
  | .comprehension _ _ es gs => by
      rw [Expr.preorder, Expr.nodes, Expr.preorder, List.append_assoc, List.append_assoc,
        filterMap_toList_append, List.filterMap_append, preorderAll_eq_filterMap es,
        preorderGenerators_eq_filterMap gs]
  | .compound _ _ ps => by
      rw [Expr.preorder, Expr.nodes, Expr.preorder, filterMap_toList_append,
        preorderAll_eq_filterMap ps]

theorem preorderAll_eq_filterMap :
    (es : List Expr) → preorderAll mark es = (preorderAll some es).filterMap mark
  | [] => rfl
  | e :: es => by
      rw [preorderAll, preorderAll, List.filterMap_append, preorder_eq_filterMap e,
        preorderAll_eq_filterMap es]
      rfl

theorem preorderKeywords_eq_filterMap :
    (ks : List Keyword) → preorderKeywords mark ks = (preorderKeywords some ks).filterMap mark
  | [] => rfl
  | .mk _ _ v :: ks => by
      rw [preorderKeywords, preorderKeywords, List.filterMap_append, preorder_eq_filterMap v,
        preorderKeywords_eq_filterMap ks]
      rfl

theorem preorderGenerators_eq_filterMap :
    (gs : List Generator) →
      preorderGenerators mark gs = (preorderGenerators some gs).filterMap mark
  | [] => rfl
  | .mk t i fs _ :: gs => by
      rw [preorderGenerators, preorderGenerators, List.filterMap_append, List.filterMap_append,
        List.filterMap_append, preorder_eq_filterMap t, preorder_eq_filterMap i,
        preorderAll_eq_filterMap fs, preorderGenerators_eq_filterMap gs]
      rfl

end

/-- A tree is one of its nodes. -/
theorem self_mem_nodes (e : Expr) : e ∈ e.nodes := by
  cases e <;> simp [Expr.nodes, Expr.preorder]

section Parts

variable {n : Expr} {s : Span}

@[simp] theorem mem_nodes_name {id : String} {a : Access} :
    n ∈ (Expr.name s id a).nodes ↔ n = .name s id a := by
  simp [Expr.nodes, Expr.preorder]

@[simp] theorem mem_nodes_constant {c : Constant} :
    n ∈ (Expr.constant s c).nodes ↔ n = .constant s c := by
  simp [Expr.nodes, Expr.preorder]

@[simp] theorem mem_nodes_field {v : Expr} {attr : String} {a : Access} :
    n ∈ (Expr.field s v attr a).nodes ↔ n = .field s v attr a ∨ n ∈ v.nodes := by
  simp [Expr.nodes, Expr.preorder]

@[simp] theorem mem_nodes_call {f : Expr} {as : List Expr} {ks : List Keyword} :
    n ∈ (Expr.call s f as ks).nodes ↔
      n = .call s f as ks ∨ n ∈ f.nodes ∨ n ∈ preorderAll some as ∨
        n ∈ preorderKeywords some ks := by
  simp [Expr.nodes, Expr.preorder]

@[simp] theorem mem_nodes_lambda {b : Binders} {kd ds : List Expr} {e : Expr} :
    n ∈ (Expr.lambda s b kd ds e).nodes ↔
      n = .lambda s b kd ds e ∨ n ∈ preorderAll some kd ∨ n ∈ preorderAll some ds ∨
        n ∈ e.nodes := by
  simp [Expr.nodes, Expr.preorder]

@[simp] theorem mem_nodes_comprehension {k : ComprehensionKind} {es : List Expr}
    {gs : List Generator} :
    n ∈ (Expr.comprehension s k es gs).nodes ↔
      n = .comprehension s k es gs ∨ n ∈ preorderAll some es ∨ n ∈ preorderGenerators some gs := by
  simp [Expr.nodes, Expr.preorder]

@[simp] theorem mem_nodes_compound {form : Form} {ps : List Expr} :
    n ∈ (Expr.compound s form ps).nodes ↔ n = .compound s form ps ∨ n ∈ preorderAll some ps := by
  simp [Expr.nodes, Expr.preorder]

@[simp] theorem mem_preorderAll_cons {e : Expr} {es : List Expr} :
    n ∈ preorderAll some (e :: es) ↔ n ∈ e.nodes ∨ n ∈ preorderAll some es := by
  simp [Expr.nodes, preorderAll]

@[simp] theorem mem_preorderKeywords_cons {name : Option String} {v : Expr} {ks : List Keyword} :
    n ∈ preorderKeywords some (.mk s name v :: ks) ↔
      n ∈ v.nodes ∨ n ∈ preorderKeywords some ks := by
  simp [Expr.nodes, preorderKeywords]

@[simp] theorem mem_preorderGenerators_cons {t i : Expr} {fs : List Expr} {a : Bool}
    {gs : List Generator} :
    n ∈ preorderGenerators some (.mk t i fs a :: gs) ↔
      n ∈ t.nodes ∨ n ∈ i.nodes ∨ n ∈ preorderAll some fs ∨ n ∈ preorderGenerators some gs := by
  simp [Expr.nodes, preorderGenerators]

end Parts

mutual

/-- The nodes of a node are nodes of the tree. -/
theorem mem_nodes_trans {n m : Expr} (hm : m ∈ n.nodes) : (e : Expr) → n ∈ e.nodes → m ∈ e.nodes
  | .name .., h => by
      rw [mem_nodes_name] at h
      exact h ▸ hm
  | .constant .., h => by
      rw [mem_nodes_constant] at h
      exact h ▸ hm
  | .field _ v _ _, h => by
      rcases mem_nodes_field.1 h with rfl | h
      · exact hm
      · exact mem_nodes_field.2 (.inr (mem_nodes_trans hm v h))
  | .call _ f as ks, h => by
      rcases mem_nodes_call.1 h with rfl | h | h | h
      · exact hm
      · exact mem_nodes_call.2 (.inr (.inl (mem_nodes_trans hm f h)))
      · exact mem_nodes_call.2 (.inr (.inr (.inl (mem_nodesAll_trans hm as h))))
      · exact mem_nodes_call.2 (.inr (.inr (.inr (mem_nodesKeywords_trans hm ks h))))
  | .lambda _ _ kd ds e, h => by
      rcases mem_nodes_lambda.1 h with rfl | h | h | h
      · exact hm
      · exact mem_nodes_lambda.2 (.inr (.inl (mem_nodesAll_trans hm kd h)))
      · exact mem_nodes_lambda.2 (.inr (.inr (.inl (mem_nodesAll_trans hm ds h))))
      · exact mem_nodes_lambda.2 (.inr (.inr (.inr (mem_nodes_trans hm e h))))
  | .comprehension _ _ es gs, h => by
      rcases mem_nodes_comprehension.1 h with rfl | h | h
      · exact hm
      · exact mem_nodes_comprehension.2 (.inr (.inl (mem_nodesAll_trans hm es h)))
      · exact mem_nodes_comprehension.2 (.inr (.inr (mem_nodesGenerators_trans hm gs h)))
  | .compound _ _ ps, h => by
      rcases mem_nodes_compound.1 h with rfl | h
      · exact hm
      · exact mem_nodes_compound.2 (.inr (mem_nodesAll_trans hm ps h))

theorem mem_nodesAll_trans {n m : Expr} (hm : m ∈ n.nodes) :
    (es : List Expr) → n ∈ preorderAll some es → m ∈ preorderAll some es
  | [], h => nomatch h
  | e :: es, h => by
      rcases mem_preorderAll_cons.1 h with h | h
      · exact mem_preorderAll_cons.2 (.inl (mem_nodes_trans hm e h))
      · exact mem_preorderAll_cons.2 (.inr (mem_nodesAll_trans hm es h))

theorem mem_nodesKeywords_trans {n m : Expr} (hm : m ∈ n.nodes) :
    (ks : List Keyword) → n ∈ preorderKeywords some ks → m ∈ preorderKeywords some ks
  | [], h => nomatch h
  | .mk _ _ v :: ks, h => by
      rcases mem_preorderKeywords_cons.1 h with h | h
      · exact mem_preorderKeywords_cons.2 (.inl (mem_nodes_trans hm v h))
      · exact mem_preorderKeywords_cons.2 (.inr (mem_nodesKeywords_trans hm ks h))

theorem mem_nodesGenerators_trans {n m : Expr} (hm : m ∈ n.nodes) :
    (gs : List Generator) → n ∈ preorderGenerators some gs → m ∈ preorderGenerators some gs
  | [], h => nomatch h
  | .mk t i fs _ :: gs, h => by
      rcases mem_preorderGenerators_cons.1 h with h | h | h | h
      · exact mem_preorderGenerators_cons.2 (.inl (mem_nodes_trans hm t h))
      · exact mem_preorderGenerators_cons.2 (.inr (.inl (mem_nodes_trans hm i h)))
      · exact mem_preorderGenerators_cons.2 (.inr (.inr (.inl (mem_nodesAll_trans hm fs h))))
      · exact mem_preorderGenerators_cons.2
          (.inr (.inr (.inr (mem_nodesGenerators_trans hm gs h))))

end

end Covenant.Tree
