import LuaBackend.Proofs.Emit.Source

/-!
# What holds of written code

`Ensures` is the logic of writing where nothing is said about failure: if
a tree is written at all, the code has a property.
-/

namespace LuaBackend.Emit

variable {α β : Type} {scope : Scope} {act : EmitM α} {P Q : α → Prop}
variable {f : α → EmitM β} {b : β} {n : UInt32} {a : α} {R : β → Prop}

def Ensures (scope : Scope) (act : EmitM α) (Q : α → Prop) : Prop :=
  ∀ n a n', act scope n = .ok a n' → Q a

theorem ensures_pure (h : Q a) : Ensures scope (pure a) Q := by
  intro n b n' hb
  cases hb
  exact h

theorem ensures_true : Ensures scope act fun _ => True := fun _ _ _ _ => trivial

theorem ensures_throw {fault : Fault} : Ensures scope (refuse fault : EmitM α) Q := by
  intro n a n' h
  cases h

theorem ensures_unsupported {construct : Construct} {loc : Loc} :
    Ensures scope (unsupported construct loc : EmitM α) Q := ensures_throw

/-- What the first part ensures may be used for the second. -/
theorem Ensures.bind (h : Ensures scope act P) (hf : ∀ a, P a → Ensures scope (f a) R) :
    Ensures scope (act >>= f) R := by
  intro n b n' hb
  obtain ⟨a, n₁, ha, hb⟩ := exists_of_bind hb
  exact hf a (h n a n₁ ha) n₁ b n' hb

theorem Ensures.mono (h : Ensures scope act P) (hPQ : ∀ a, P a → Q a) : Ensures scope act Q :=
  fun n a n' ha => hPQ a (h n a n' ha)

theorem Ensures.map {f : α → β} (h : Ensures scope act P) (hf : ∀ a, P a → R (f a)) :
    Ensures scope (act >>= fun a => pure (f a)) R :=
  h.bind fun a ha => ensures_pure (hf a ha)

/-- The scope is known where it is read. -/
theorem ensures_read {f : Scope → EmitM α} (h : Ensures scope (f scope) Q) :
    Ensures scope (EmitM.scope >>= f) Q := by
  intro n a n' ha
  rw [EmitM.run_scope_bind] at ha
  exact h n a n' ha

end LuaBackend.Emit
