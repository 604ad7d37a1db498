import LuaBackend.Nulls.Fold
import LuaBackend.Proofs.Tree.Rebuild

/-!
# Folding as rebuilding

The count of decided comparisons does not decide anything itself, so the
folded tree is a tree rebuilt from below. A truth value breaks no rule of
normal form that a comparison keeps, so folding breaks none.
-/

namespace LuaBackend.Nulls

open Expr

/-- The node with a comparison replaced by its outcome, if that is
known. -/
def decided (admits : Nullability) (e : Expr) : Expr :=
  match outcome? admits e with
  | some value => .boolLit e.loc value
  | none => e

/-- Deciding a node changes the count only besides. -/
theorem run_foldNode (admits : Nullability) (e : Expr) (count : Nat) :
    ((foldNode admits e).run count).1 = decided admits e := by
  unfold foldNode decided
  cases outcome? admits e <;> rfl

/-- The folded tree is the tree with each node decided from below. -/
theorem folded_eq_rebuild (admits : Nullability) (e : Expr) :
    folded admits e = e.retyped.rebuild (decided admits) :=
  bottomUp_run (run_foldNode admits) e.retyped 0

/-- Only a comparison has an outcome. -/
theorem exists_of_outcome? {admits : Nullability} {e : Expr} {value : Bool}
    (h : outcome? admits e = some value) : ∃ loc type op lhs rhs,
      e = .binary loc type op lhs rhs ∧ op.isAssignment = false ∧ op ≠ .nullCoalesce := by
  unfold outcome? at h
  split at h
  · exact ⟨_, _, _, _, _, rfl, rfl, by decide⟩
  · exact ⟨_, _, _, _, _, rfl, rfl, by decide⟩
  · exact nomatch h

/-- A truth value may stand where a comparison may. -/
theorem milder_decided (admits : Nullability) (e : Expr) : Milder e (decided admits e) := by
  unfold decided
  cases hout : outcome? admits e with
  | none => exact Milder.refl e
  | some =>
    obtain ⟨loc, type, op, lhs, rhs, rfl, hassign, hcoalesce⟩ := exists_of_outcome? hout
    refine ⟨fun position h => ?_, fun hp => absurd hp Bool.false_ne_true, fun _ => rfl⟩
    rw [violation, hassign, if_neg hcoalesce] at h
    cases position with
    | target => cases h
    | _ => rfl

/-- Folding breaks no rule that the tree keeps. -/
theorem milder_folded (admits : Nullability) (e : Expr) : Milder e (folded admits e) := by
  rw [folded_eq_rebuild]
  exact (milder_retyped e).trans (Milder.rebuild (milder_decided admits) e.retyped)

end LuaBackend.Nulls
