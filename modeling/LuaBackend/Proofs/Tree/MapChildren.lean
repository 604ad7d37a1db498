import LuaBackend.Proofs.Tree.Scope

/-!
# Nothing to rebuild

Rebuilding with a function that every node is a fixed point of does
nothing, whatever the effects are (`bottomUp_eq_pure`). So the types of a
tree are brought up to date once and for all.
-/

namespace LuaBackend.Expr

variable {e : Expr}

/-- Where every node is a fixed point of the function, rebuilding a tree
does nothing. -/
theorem bottomUp_eq_pure {m : Type → Type} [Monad m] [LawfulMonad m] {f : Expr → m Expr}
    (h : e.Throughout fun n => f n = pure n) : e.bottomUp f = pure e := by
  let T : Yields m := ⟨fun x a => x = pure a, fun _ => rfl, fun {_ _ _ f a _} hx hf => by
    rw [hx, pure_bind, hf]⟩
  induction e using induction_on_children with
  | step e ih =>
    by_cases he : e = omitted
    · subst he
      rfl
    · refine yields_bottomUp (T := T) (k := id) he (fun c hc => ih c hc (h.child hc)) ?_
      rw [mapChildren_id]
      exact h.node

def UpToDate (e : Expr) : Prop := e.retype = e

/-- The type is up to date after it has been brought so. -/
theorem upToDate_retype (e : Expr) : UpToDate e.retype := by
  cases e <;> rfl

/-- The types of a node stay up to date if its children keep theirs. -/
theorem UpToDate.mapChildren {g : Expr → Expr} (h : UpToDate e)
    (hg : ∀ c ∈ e.children, (g c).type = c.type) : UpToDate (e.mapChildren g) := by
  cases e with
  | paren loc type inner =>
    have hinner : inner.type = type := (paren.inj h).2.1
    have hkept := hg inner (.head _)
    exact congrArg (paren loc · (g inner)) (hkept.trans hinner)
  | annot loc type name inner =>
    have hinner : inner.type = type := (annot.inj h).2.1
    have hkept := hg inner (.head _)
    exact congrArg (annot loc · name (g inner)) (hkept.trans hinner)
  | _ => rfl

/-- After bringing types up to date they are so everywhere. -/
theorem throughout_upToDate_retyped (e : Expr) : e.retyped.Throughout UpToDate := by
  refine rebuild_induction (P := fun _ e' => e'.Throughout UpToDate) ?_ (fun e ih => ?_) e
  · exact throughout_iff.2 ⟨rfl, List.forall_mem_nil _⟩
  · refine throughout_iff.2 ⟨upToDate_retype _, ?_⟩
    rw [children_retype, children_mapChildren]
    exact List.forall_mem_map.2 ih

/-- An up-to-date tree stays as it is. -/
theorem retyped_of_upToDate (h : e.Throughout UpToDate) : e.retyped = e :=
  bottomUp_eq_pure (m := Id) h

/-- Types that are up to date stay as they are. -/
theorem retyped_retyped (e : Expr) : e.retyped.retyped = e.retyped :=
  retyped_of_upToDate (throughout_upToDate_retyped e)

end LuaBackend.Expr
