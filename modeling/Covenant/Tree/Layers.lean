import Covenant.Tree.Expr

/-! # Layers — marks of a tree, level by level

    A breadth-first walk meets the nodes of a tree layer by layer, each layer
    from left to right.  `layers` collects what a test finds at the
    expressions of each layer; keyword arguments, parameter lists and the
    parts of comprehensions are nodes of their own and take up a layer. -/

namespace Covenant.Tree

variable {α : Type}

/-- Puts two forests side by side: the layers of the second follow those of the first. -/
def besides : List (List α) → List (List α) → List (List α)
  | [], ys => ys
  | xs, [] => xs
  | x :: xs, y :: ys => (x ++ y) :: besides xs ys

/-- A layer more on top. -/
def below (top : List α) (layers : List (List α)) : List (List α) := top :: layers

mutual

/-- The marks of an expression's tree by layers. -/
def Expr.layers (mark : Expr → Option α) : Expr → List (List α)
  | e@(.name ..) => [(mark e).toList]
  | e@(.constant ..) => [(mark e).toList]
  | e@(.field _ v _ _) => below (mark e).toList (v.layers mark)
  | e@(.call _ f as ks) =>
    below (mark e).toList
      (besides (f.layers mark) (besides (layersAll mark as) (layersKeywords mark ks)))
  | e@(.lambda _ _ kd ds b) =>
    below (mark e).toList
      (besides (below [] (besides (layersAll mark kd) (layersAll mark ds))) (b.layers mark))
  | e@(.comprehension _ _ es gs) =>
    below (mark e).toList (besides (layersAll mark es) (layersGenerators mark gs))
  | e@(.compound _ _ ps) => below (mark e).toList (layersAll mark ps)

/-- The marks of a list of trees by layers. -/
def layersAll (mark : Expr → Option α) : List Expr → List (List α)
  | [] => []
  | e :: es => besides (e.layers mark) (layersAll mark es)

/-- The marks of keyword arguments by layers. -/
def layersKeywords (mark : Expr → Option α) : List Keyword → List (List α)
  | [] => []
  | .mk _ _ v :: ks => besides (below [] (v.layers mark)) (layersKeywords mark ks)

/-- The marks of the parts of a comprehension by layers. -/
def layersGenerators (mark : Expr → Option α) : List Generator → List (List α)
  | [] => []
  | .mk t i fs _ :: gs =>
    besides
      (below [] (besides (t.layers mark) (besides (i.layers mark) (layersAll mark fs))))
      (layersGenerators mark gs)

end

/-- The marks in the order of a breadth-first walk. -/
def Expr.marks (mark : Expr → Option α) (e : Expr) : List α :=
  (e.layers mark).flatten

/-- A mark stands in one of two forests side by side exactly when it stands in either. -/
theorem mem_flatten_besides {x : α} (xs ys : List (List α)) :
    x ∈ (besides xs ys).flatten ↔ x ∈ xs.flatten ∨ x ∈ ys.flatten := by
  induction xs generalizing ys with
  | nil => simp [besides]
  | cons a as ih =>
    cases ys with
    | nil => simp [besides]
    | cons b bs =>
      simp only [besides, List.flatten_cons, List.mem_append, ih]
      constructor
      · rintro ((h | h) | h | h)
        · exact Or.inl (Or.inl h)
        · exact Or.inr (Or.inl h)
        · exact Or.inl (Or.inr h)
        · exact Or.inr (Or.inr h)
      · rintro ((h | h) | h | h)
        · exact Or.inl (Or.inl h)
        · exact Or.inr (Or.inl h)
        · exact Or.inl (Or.inr h)
        · exact Or.inr (Or.inr h)

end Covenant.Tree
