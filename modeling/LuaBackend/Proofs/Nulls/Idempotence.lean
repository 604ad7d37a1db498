import LuaBackend.Proofs.Nulls.Fold
import LuaBackend.Proofs.Tree.MapChildren

/-!
# Folding once is enough

A tree is `Folded` if no comparison in it is decided and the types of its
parentheses and annotations are up to date. Folding leaves such a tree as
it is, and gives one: a node is decided after its children, and a truth
value has the type of the comparison.
-/

namespace LuaBackend.Nulls

open Expr

variable {admits : Nullability} {e : Expr}

def isEqualityTest : Expr → Bool
  | .binary _ _ .eq _ _ | .binary _ _ .ne _ _ => true
  | _ => false

/-- If the node compares for equality, then it has the type of truth
values. -/
def ComparesInBool (e : Expr) : Prop := isEqualityTest e = true → e.type = .bool

instance decidableEqBool : ∀ type : Ty, Decidable (type = .bool)
  | .of .bool path [] [] => decidable_of_iff (path = {}) ⟨congrArg (Ty.of .bool · [] []),
      fun h => (Ty.of.inj h).2.1⟩
  | .of .bool _ (_ :: _) _ | .of .bool _ [] (_ :: _) | .untyped
  | .of .void .. | .of .int .. | .of .float .. | .of .string .. | .of .dynamic .. | .of .null ..
  | .of .inst .. | .of .enum .. | .of .anon .. | .of .function .. | .of .typeParam ..
  | .of .unknown .. => isFalse (by rintro ⟨⟩)

instance : DecidablePred ComparesInBool := fun e =>
  inferInstanceAs (Decidable (isEqualityTest e = true → e.type = .bool))

/-- Changing the children keeps the node comparing in truth values. -/
theorem comparesInBool_mapChildren {g : Expr → Expr} :
    ComparesInBool (e.mapChildren g) ↔ ComparesInBool e := by
  rw [ComparesInBool, type_mapChildren]
  cases e with
  | binary loc type op => cases op <;> exact Iff.rfl
  | _ => exact Iff.rfl

theorem ComparesInBool.retype (h : ComparesInBool e) : ComparesInBool e.retype := by
  cases e with
  | paren | annot => exact fun htest => absurd htest Bool.false_ne_true
  | _ => exact h

/-- Bringing types up to date keeps comparisons in truth values. -/
theorem throughout_comparesInBool_retyped (h : e.Throughout ComparesInBool) :
    e.retyped.Throughout ComparesInBool := by
  revert h
  refine rebuild_induction (P := fun e e' => e.Throughout ComparesInBool →
    e'.Throughout ComparesInBool) id (fun e ih h => ?_) e
  refine throughout_iff.2 ⟨(comparesInBool_mapChildren.2 h.node).retype, ?_⟩
  rw [children_retype, children_mapChildren]
  exact List.forall_mem_map.2 fun c hc => ih c hc (h.child hc)

theorem decided_of_none (h : outcome? admits e = none) : decided admits e = e := by
  rw [decided, h]

theorem decided_of_some {value : Bool} (h : outcome? admits e = some value) :
    decided admits e = .boolLit e.loc value := by
  rw [decided, h]

/-- A truth value has the type of the comparison that it is the outcome
of. -/
theorem type_decided (h : ComparesInBool e) : (decided admits e).type = e.type := by
  cases hout : outcome? admits e with
  | none => rw [decided_of_none hout]
  | some =>
    rw [decided_of_some hout]
    refine (h ?_).symm
    unfold outcome? at hout
    split at hout
    · rfl
    · rfl
    · cases hout

/-- No comparison to decide at this node, and no type to bring up to
date. -/
def Folded (admits : Nullability) (e : Expr) : Prop := outcome? admits e = none ∧ UpToDate e

/-- Deciding a node whose children are `Folded` makes it so, and keeps its
type. -/
theorem folded_decided (hbool : ComparesInBool e) (hdate : UpToDate e)
    (hbelow : ∀ c ∈ e.children, c.Throughout (Folded admits)) :
    (decided admits e).type = e.type ∧ (decided admits e).Throughout (Folded admits) := by
  refine ⟨type_decided hbool, ?_⟩
  cases hout : outcome? admits e with
  | none =>
    rw [decided_of_none hout]
    exact throughout_iff.2 ⟨⟨hout, hdate⟩, hbelow⟩
  | some =>
    rw [decided_of_some hout]
    exact throughout_iff.2 ⟨⟨rfl, rfl⟩, List.forall_mem_nil _⟩

/-- A tree whose nodes are decided from below is `Folded`. -/
theorem folded_rebuild (h : e.Throughout fun n => ComparesInBool n ∧ UpToDate n) :
    (e.rebuild (decided admits)).type = e.type ∧
      (e.rebuild (decided admits)).Throughout (Folded admits) := by
  revert h
  refine rebuild_induction (P := fun e e' => (e.Throughout fun n => ComparesInBool n ∧ UpToDate n) →
    e'.type = e.type ∧ e'.Throughout (Folded admits)) ?_ (fun e ih h => ?_) e
  · exact fun _ => ⟨rfl, throughout_iff.2 ⟨⟨rfl, rfl⟩, List.forall_mem_nil _⟩⟩
  · have hbelow : ∀ c ∈ e.children, (c.rebuild (decided admits)).type = c.type ∧
        (c.rebuild (decided admits)).Throughout (Folded admits) :=
      fun c hc => ih c hc (h.child hc)
    have hdate := h.node.2.mapChildren fun c hc => (hbelow c hc).1
    have hnode := folded_decided (comparesInBool_mapChildren.2 h.node.1) hdate (by
      rw [children_mapChildren]
      exact List.forall_mem_map.2 fun c hc => (hbelow c hc).2)
    rwa [type_mapChildren] at hnode

theorem folded_folded (h : e.Throughout ComparesInBool) :
    (folded admits e).Throughout (Folded admits) := by
  rw [folded_eq_rebuild]
  exact (folded_rebuild ((throughout_comparesInBool_retyped h).and
    (throughout_upToDate_retyped e))).2

/-- There is nothing to fold in a `Folded` tree, and nothing to count. -/
theorem fold_of_folded (h : e.Throughout (Folded admits)) : fold admits e = pure e := by
  rw [fold, retyped_of_upToDate (h.mono fun _ hn => hn.2)]
  exact bottomUp_eq_pure (h.mono fun _ hn => by rw [foldNode, hn.1])

/-- **Folding once is enough.** Where comparisons have the type of truth
values, folding a folded tree again gives the same tree and counts no
further comparison, and no comparison in the folded tree is decided. -/
theorem fold_fold (admits : Nullability) {e e' : Expr} {count count' : Nat}
    (hbool : e.Throughout ComparesInBool) (hfold : (fold admits e).run count = (e', count')) :
    (fold admits e').run count' = (e', count') ∧
      e'.Throughout fun n => outcome? admits n = none := by
  have he' : e' = folded admits e := by
    rw [folded_eq_rebuild, ← bottomUp_run (run_foldNode admits) e.retyped count]
    exact congrArg Prod.fst hfold.symm
  have hfolded : e'.Throughout (Folded admits) := he' ▸ folded_folded hbool
  rw [fold_of_folded hfolded]
  exact ⟨rfl, hfolded.mono fun _ hn => hn.1⟩

def nestedTest : Expr :=
  mkBinary {} .ne (mkParen {} (mkBinary {} .eq (nullLit {}) (nullLit {}))) (nullLit {})

/-- Both comparisons are decided in one run, the outer one because of the
inner one. -/
theorem fold_fold_nestedTest : nestedTest.Throughout ComparesInBool ∧
    (fold (.builtin false) nestedTest).run 0 = (boolLit {} true, 2) ∧
    (fold (.builtin false) (boolLit {} true)).run 2 = (boolLit {} true, 2) := by
  have hbool : nestedTest.Throughout ComparesInBool := by decide
  have hfold : (fold (.builtin false) nestedTest).run 0 = (boolLit {} true, 2) := rfl
  exact ⟨hbool, hfold, (fold_fold (.builtin false) hbool hfold).1⟩

end LuaBackend.Nulls
