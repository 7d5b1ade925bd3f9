import Covenant.Proofs.Tree.Marks
import Mathlib.Data.List.Basic

/-! # Paths — nodes of a tree, told apart by where they stand

    Equal nodes may stand at several places of a tree.  A path says which one
    is meant: it gives, from the root on, the number of the part to go into.

    * A node is its head and its parts (`eq_of_head_of_parts`).  The head has the
      kind, the span and the fields that are no trees, and how many trees the
      other fields have.
    * A tree is the heads at its paths (`eq_of_heads`). -/

namespace Covenant.Tree

/-! ## Parts -/

/-- The trees that stand directly in a part of a comprehension. -/
def Generator.parts : Generator → List Expr
  | .mk t i fs _ => t :: i :: fs

/-- The trees that stand directly in a tree; the parts of a comprehension come before its
    elements. -/
def Expr.parts : Expr → List Expr
  | .name .. | .constant .. => []
  | .field _ v _ _ => [v]
  | .call _ f as ks => f :: (as ++ ks.map Keyword.value)
  | .lambda _ _ kd ds e => kd ++ (ds ++ [e])
  | .comprehension _ _ es gs => gs.flatMap Generator.parts ++ es
  | .compound _ _ ps => ps

section Nodes

variable {n : Expr}

theorem mem_preorderAll {es : List Expr} :
    n ∈ preorderAll some es ↔ ∃ e ∈ es, n ∈ e.nodes := by
  induction es with
  | nil => simp [preorderAll]
  | cons e es ih => rw [mem_preorderAll_cons, ih, List.exists_mem_cons_iff]

theorem mem_preorderKeywords {ks : List Keyword} :
    n ∈ preorderKeywords some ks ↔ ∃ e ∈ ks.map Keyword.value, n ∈ e.nodes := by
  induction ks with
  | nil => simp [preorderKeywords]
  | cons k ks ih =>
      obtain ⟨s, name, v⟩ := k
      rw [mem_preorderKeywords_cons, ih, List.map_cons, List.exists_mem_cons_iff]
      rfl

theorem mem_preorderGenerators {gs : List Generator} :
    n ∈ preorderGenerators some gs ↔ ∃ e ∈ gs.flatMap Generator.parts, n ∈ e.nodes := by
  induction gs with
  | nil => simp [preorderGenerators]
  | cons g gs ih =>
      obtain ⟨t, i, fs, a⟩ := g
      rw [mem_preorderGenerators_cons, ih, mem_preorderAll, List.flatMap_cons]
      simp only [Generator.parts, List.cons_append, List.exists_mem_cons_iff, List.mem_append,
        or_and_right, exists_or]

/-- The nodes of a tree are the tree itself and the nodes of its parts. -/
theorem mem_nodes_iff {e : Expr} : n ∈ e.nodes ↔ n = e ∨ ∃ p ∈ e.parts, n ∈ p.nodes := by
  cases e with
  | name s id a => simp [Expr.parts]
  | constant s c => simp [Expr.parts]
  | field s v attr a => simp [Expr.parts]
  | call s f as ks =>
      rw [mem_nodes_call, mem_preorderAll, mem_preorderKeywords]
      simp only [Expr.parts, List.exists_mem_cons_iff, List.mem_append, or_and_right, exists_or]
  | lambda s b kd ds e =>
      rw [mem_nodes_lambda, mem_preorderAll, mem_preorderAll]
      simp only [Expr.parts, List.mem_append, List.mem_singleton, or_and_right, exists_or,
        exists_eq_left]
  | comprehension s k es gs =>
      rw [mem_nodes_comprehension, mem_preorderAll, mem_preorderGenerators]
      simp only [Expr.parts, List.mem_append, or_and_right, exists_or]
      rw [or_comm (a := ∃ e ∈ es, n ∈ e.nodes)]
  | compound s form ps => rw [mem_nodes_compound, mem_preorderAll, Expr.parts]

theorem mem_nodes_of_mem_parts {e p : Expr} (hp : p ∈ e.parts) (hn : n ∈ p.nodes) :
    n ∈ e.nodes :=
  mem_nodes_iff.2 (.inr ⟨p, hp, hn⟩)

end Nodes

/-- A part is smaller than the tree it stands in. -/
theorem sizeOf_lt_of_mem_parts {e p : Expr} (h : p ∈ e.parts) : sizeOf p < sizeOf e := by
  cases e with
  | name | constant => exact absurd h List.not_mem_nil
  | field s v attr a =>
      obtain rfl := List.mem_singleton.mp h
      simp only [Expr.field.sizeOf_spec]
      omega
  | call s f as ks =>
      simp only [Expr.call.sizeOf_spec]
      rcases List.mem_cons.mp h with rfl | h
      · omega
      rcases List.mem_append.mp h with h | h
      · have hlt := List.sizeOf_lt_of_mem h
        omega
      · obtain ⟨⟨ks', name, v⟩, hk, rfl⟩ := List.mem_map.mp h
        have hlt := List.sizeOf_lt_of_mem hk
        simp only [Keyword.mk.sizeOf_spec] at hlt
        show sizeOf v < _
        omega
  | lambda s b kd ds e =>
      simp only [Expr.lambda.sizeOf_spec]
      rcases List.mem_append.mp h with h | h
      · have hlt := List.sizeOf_lt_of_mem h
        omega
      rcases List.mem_append.mp h with h | h
      · have hlt := List.sizeOf_lt_of_mem h
        omega
      · obtain rfl := List.mem_singleton.mp h
        omega
  | comprehension s k es gs =>
      simp only [Expr.comprehension.sizeOf_spec]
      rcases List.mem_append.mp h with h | h
      · obtain ⟨⟨t, i, fs, a⟩, hg, h⟩ := List.mem_flatMap.mp h
        have hlt := List.sizeOf_lt_of_mem hg
        simp only [Generator.mk.sizeOf_spec] at hlt
        rcases List.mem_cons.mp h with rfl | h
        · omega
        rcases List.mem_cons.mp h with rfl | h
        · omega
        · have hlt' := List.sizeOf_lt_of_mem h
          omega
      · have hlt := List.sizeOf_lt_of_mem h
        omega
  | compound s form ps =>
      have hlt := List.sizeOf_lt_of_mem (show p ∈ ps from h)
      simp only [Expr.compound.sizeOf_spec]
      omega

/-- What holds of a tree if it holds of its parts, holds of all trees. -/
theorem induction_parts {motive : Expr → Prop}
    (h : ∀ e, (∀ p ∈ e.parts, motive p) → motive e) (e : Expr) : motive e :=
  h e fun p _ => induction_parts h p
termination_by sizeOf e
decreasing_by exact sizeOf_lt_of_mem_parts ‹_›

/-! ## Heads -/

/-- What stands in a head in place of a tree. -/
def hole : Expr := default

/-- A keyword argument without its value. -/
def Keyword.head : Keyword → Keyword
  | .mk s n _ => .mk s n hole

/-- A part of a comprehension without its trees. -/
def Generator.head : Generator → Generator
  | .mk _ _ fs a => .mk hole hole (fs.map fun _ => hole) a

/-- A tree without its parts: its kind, its span, the fields that are no trees, and how many trees
    the others have. -/
def Expr.head : Expr → Expr
  | .name s id a => .name s id a
  | .constant s c => .constant s c
  | .field s _ n a => .field s hole n a
  | .call s _ as ks => .call s hole (as.map fun _ => hole) (ks.map Keyword.head)
  | .lambda s b kd ds _ => .lambda s b (kd.map fun _ => hole) (ds.map fun _ => hole) hole
  | .comprehension s k es gs => .comprehension s k (es.map fun _ => hole) (gs.map Generator.head)
  | .compound s form ps => .compound s form (ps.map fun _ => hole)

theorem span_head (e : Expr) : e.head.span = e.span := by
  cases e <;> rfl

theorem length_eq_of_holes {es es' : List Expr}
    (h : es.map (fun _ => hole) = es'.map fun _ => hole) : es.length = es'.length := by
  simpa using congrArg List.length h

theorem keywords_eq_of_heads {ks ks' : List Keyword} (hheads : ks.map Keyword.head = ks'.map .head)
    (hvalues : ks.map Keyword.value = ks'.map Keyword.value) : ks = ks' := by
  induction ks generalizing ks' with
  | nil => exact (List.map_eq_nil_iff.mp hheads.symm).symm
  | cons k ks ih =>
      cases ks' with
      | nil => cases hheads
      | cons k' ks' =>
          obtain ⟨s, n, v⟩ := k
          obtain ⟨s', n', v'⟩ := k'
          obtain ⟨hhead, hmore⟩ := List.cons.inj hheads
          obtain ⟨hvalue, hothers⟩ := List.cons.inj hvalues
          obtain ⟨rfl, rfl, -⟩ := Keyword.mk.inj hhead
          obtain rfl : v = v' := hvalue
          rw [ih hmore hothers]

theorem generators_eq_of_heads {gs gs' : List Generator} {es es' : List Expr}
    (hheads : gs.map Generator.head = gs'.map .head)
    (hparts : gs.flatMap Generator.parts ++ es = gs'.flatMap Generator.parts ++ es') :
    gs = gs' ∧ es = es' := by
  induction gs generalizing gs' with
  | nil =>
      obtain rfl := List.map_eq_nil_iff.mp hheads.symm
      exact ⟨rfl, hparts⟩
  | cons g gs ih =>
      cases gs' with
      | nil => cases hheads
      | cons g' gs' =>
          obtain ⟨t, i, fs, a⟩ := g
          obtain ⟨t', i', fs', a'⟩ := g'
          obtain ⟨hhead, hmore⟩ := List.cons.inj hheads
          obtain ⟨-, -, hfilters, rfl⟩ := Generator.mk.inj hhead
          simp only [List.flatMap_cons, Generator.parts, List.cons_append, List.append_assoc]
            at hparts
          obtain ⟨rfl, hiter⟩ := List.cons.inj hparts
          obtain ⟨rfl, hothers⟩ := List.cons.inj hiter
          obtain ⟨rfl, hrest⟩ := List.append_inj hothers (length_eq_of_holes hfilters)
          obtain ⟨rfl, hes⟩ := ih hmore hrest
          exact ⟨rfl, hes⟩

/-- **A NODE IS ITS HEAD AND ITS PARTS**. -/
theorem eq_of_head_of_parts {e e' : Expr} (hhead : e.head = e'.head) (hparts : e.parts = e'.parts) :
    e = e' := by
  cases e with
  | name s id a =>
      cases e' <;> cases hhead
      rfl
  | constant s c =>
      cases e' <;> cases hhead
      rfl
  | field s v n a =>
      cases e' with
      | field s' v' n' a' =>
          obtain ⟨rfl, -, rfl, rfl⟩ := Expr.field.inj hhead
          rw [(List.cons.inj hparts).1]
      | _ => cases hhead
  | call s f as ks =>
      cases e' with
      | call s' f' as' ks' =>
          obtain ⟨rfl, -, hargs, hkeywords⟩ := Expr.call.inj hhead
          obtain ⟨rfl, hothers⟩ := List.cons.inj hparts
          obtain ⟨rfl, hvalues⟩ := List.append_inj hothers (length_eq_of_holes hargs)
          rw [keywords_eq_of_heads hkeywords hvalues]
      | _ => cases hhead
  | lambda s b kd ds e =>
      cases e' with
      | lambda s' b' kd' ds' e' =>
          obtain ⟨rfl, rfl, hnamed, hdefaults, -⟩ := Expr.lambda.inj hhead
          obtain ⟨rfl, hothers⟩ := List.append_inj hparts (length_eq_of_holes hnamed)
          obtain ⟨rfl, hbody⟩ := List.append_inj hothers (length_eq_of_holes hdefaults)
          rw [(List.cons.inj hbody).1]
      | _ => cases hhead
  | comprehension s k es gs =>
      cases e' with
      | comprehension s' k' es' gs' =>
          obtain ⟨rfl, rfl, -, hgenerators⟩ := Expr.comprehension.inj hhead
          obtain ⟨rfl, rfl⟩ := generators_eq_of_heads hgenerators hparts
          rfl
      | _ => cases hhead
  | compound s form ps =>
      cases e' with
      | compound s' form' ps' =>
          obtain ⟨rfl, rfl, -⟩ := Expr.compound.inj hhead
          rw [show ps = ps' from hparts]
      | _ => cases hhead

/-- How many parts a tree has can be seen from its head. -/
theorem length_parts_head (e : Expr) : e.head.parts.length = e.parts.length := by
  cases e with
  | comprehension s k es gs =>
      simp only [Expr.head, Expr.parts, List.length_append, List.length_map, List.length_flatMap,
        List.map_map]
      congr 2
      refine List.map_congr_left fun g _ => ?_
      obtain ⟨t, i, fs, a⟩ := g
      simp [Generator.head, Generator.parts]
  | name | constant | field | call | lambda | compound => simp [Expr.head, Expr.parts]

/-! ## Paths -/

/-- A way from a tree down to a node: the number of a part, the number of a part of that part, and
    so on. -/
abbrev Path := List Nat

/-- The node at the end of a path, if the path is one of the tree. -/
def Expr.at? : Expr → Path → Option Expr
  | e, [] => some e
  | e, i :: path => e.parts[i]?.bind fun part => part.at? path

/-- The node at the end of a path into one of several trees. -/
def atAll? (es : List Expr) : Path → Option Expr
  | [] => none
  | i :: path => es[i]?.bind fun e => e.at? path

theorem at?_cons (e : Expr) (i : Nat) (path : Path) :
    e.at? (i :: path) = atAll? e.parts (i :: path) :=
  rfl

/-- A path goes on from the node at the end of its first part. -/
theorem at?_append (e : Expr) (p q : Path) : e.at? (p ++ q) = (e.at? p).bind fun x => x.at? q := by
  induction p generalizing e with
  | nil => rfl
  | cons i p ih =>
      show e.parts[i]?.bind (fun part => part.at? (p ++ q)) = _
      simp only [Expr.at?, Option.bind_assoc, ih]

/-- What stands at the end of a path is a node of the tree. -/
theorem mem_nodes_of_at? {e x : Expr} {p : Path} (h : e.at? p = some x) : x ∈ e.nodes := by
  induction p generalizing e with
  | nil => exact Option.some.inj h ▸ self_mem_nodes e
  | cons i p ih =>
      obtain ⟨part, hpart, h⟩ := Option.bind_eq_some_iff.mp h
      exact mem_nodes_of_mem_parts (List.mem_of_getElem? hpart) (ih h)

/-- The same way into trees with one more in front. -/
def Path.behindFirst : Path → Path
  | [] => []
  | i :: path => (i + 1) :: path

@[simp] theorem atAll?_nil (path : Path) : atAll? [] path = none := by
  cases path <;> rfl

@[simp] theorem atAll?_first (e : Expr) (es : List Expr) (path : Path) :
    atAll? (e :: es) (0 :: path) = e.at? path :=
  rfl

@[simp] theorem atAll?_behindFirst (e : Expr) (es : List Expr) (path : Path) :
    atAll? (e :: es) (path.behindFirst) = atAll? es path := by
  cases path <;> rfl

@[simp] theorem behindFirst_isPrefix {p q : Path} :
    p.behindFirst <+: q.behindFirst ↔ p <+: q := by
  cases p with
  | nil => simp [Path.behindFirst]
  | cons i p =>
      cases q with
      | nil => simp [Path.behindFirst]
      | cons j q => simp [Path.behindFirst, List.cons_prefix_cons]

/-- **A TREE IS THE HEADS AT ITS PATHS**. -/
theorem eq_of_heads {e e' : Expr}
    (h : ∀ path, (e.at? path).map Expr.head = (e'.at? path).map .head) : e = e' := by
  induction e using induction_parts generalizing e' with
  | h e ih =>
      have hhead : e.head = e'.head := Option.some.inj (h [])
      have hlength : e.parts.length = e'.parts.length := by
        rw [← length_parts_head e, hhead, length_parts_head e']
      refine eq_of_head_of_parts hhead (List.ext_getElem hlength fun i hi hi' => ?_)
      refine ih _ (List.getElem_mem hi) fun path => ?_
      have hpath := h (i :: path)
      rw [at?_cons, at?_cons] at hpath
      simpa only [atAll?, List.getElem?_eq_getElem hi, List.getElem?_eq_getElem hi',
        Option.bind_some] using hpath

end Covenant.Tree
