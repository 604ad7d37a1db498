import LuaBackend.Normalize.Supply
import LuaBackend.Outcome

/-!
# Runs of the normalizer

A computation of the normalizer takes temporaries from a supply, and the
only failure that is no defect is that there are none left. `Gives x s Q`
says that the run of `x` from `s` is of this kind: it runs out of
temporaries, or it has a result with `Q`.
-/

namespace LuaBackend.Normalize

open UInt32

variable {α β : Type} {x : Norm α} {s : TempSupply} {P Q : α → TempSupply → Prop}
variable {type : Ty}
variable {s' : TempSupply} {needed : Bool} {value : Expr}

/-- Run from `s`, the computation runs out of temporaries or has a result
with `Q`. -/
def Gives (x : Norm α) (s : TempSupply) (Q : α → TempSupply → Prop) : Prop :=
  match x s with
  | .ok a s' => Q a s'
  | .error fault _ => fault = .temporaries .exhausted

theorem gives_pure {a : α} (h : Q a s) : Gives (pure a) s Q := h

/-- The second part runs from wherever the first one ends. -/
theorem Gives.bind {f : α → Norm β} {R : β → TempSupply → Prop} (hx : Gives x s P)
    (hf : ∀ a s', P a s' → Gives (f a) s' R) : Gives (x >>= f) s R := by
  unfold Gives at hx ⊢
  cases hr : x s with
  | ok a s' =>
    rw [hr] at hx
    rw [run_bind_ok hr]
    exact hf a s' hx
  | error =>
    rw [hr] at hx
    rwa [run_bind_error hr]

theorem Gives.mono (hx : Gives x s P) (h : ∀ a s', P a s' → Q a s') : Gives x s Q := by
  unfold Gives at hx ⊢
  split at hx
  · exact h _ _ hx
  · exact hx

theorem Gives.and (hp : Gives x s P) (hq : Gives x s Q) :
    Gives x s fun a s' => P a s' ∧ Q a s' := by
  unfold Gives at hp hq ⊢
  split at hp
  · rename_i h
    rw [h] at hq
    exact ⟨hp, hq⟩
  · exact hp

/-- What is given for each index is given for all of them. -/
theorem Gives.forall {ι : Type} [Nonempty ι] {Q : ι → α → TempSupply → Prop}
    (h : ∀ i, Gives x s (Q i)) : Gives x s fun a s' => ∀ i, Q i a s' := by
  unfold Gives at h ⊢
  split
  · rename_i hr
    intro i
    have hi := h i
    rwa [hr] at hi
  · rename_i hr
    have hi := h (Classical.choice inferInstance)
    rwa [hr] at hi

/-- What a run gives holds of any result it has. -/
theorem Gives.of_ok {a : α} (hx : Gives x s Q) (h : x s = .ok a s') : Q a s' := by
  unfold Gives at hx
  rwa [h] at hx

/-- It only fails because no temporaries are left. -/
theorem Gives.fault_eq {fault : Fault} (hx : Gives x s Q) (h : x s = .error fault s') :
    fault = .temporaries .exhausted := by
  unfold Gives at hx
  rwa [h] at hx

def nextTemp (s : TempSupply) (type : Ty) : Var :=
  ⟨ofNat s.next, tempName (ofNat s.next), if type.isUntyped then .dynamic else type⟩

def afterTemp (s : TempSupply) : TempSupply := ⟨s.first, s.next + 1⟩

theorem gives_freshTemp {Q : Var → TempSupply → Prop}
    (h : s.next < size → Q (nextTemp s type) (afterTemp s)) :
    Gives (freshTemp type) s Q := by
  unfold Gives freshTemp TempSupply.fresh
  by_cases hs : size ≤ s.next
  · simp [hs]
  · simp only [hs, if_false]
    cases type <;> exact h (by omega)

/-- A fresh temporary, and the run after it. -/
theorem gives_freshTemp_bind {f : Var → Norm β} {R : β → TempSupply → Prop}
    (h : s.next < size → Gives (f (nextTemp s type)) (afterTemp s) R) :
    Gives (freshTemp type >>= f) s R := by
  refine Gives.bind (P := fun t s' => t = nextTemp s type ∧ s' = afterTemp s ∧
    s.next < size) (gives_freshTemp fun hlt => ⟨rfl, rfl, hlt⟩) ?_
  rintro t s' ⟨rfl, rfl, hlt⟩
  exact h hlt

/-- A value is moved into the next temporary, or stays. -/
theorem gives_spill {Q : Hoisted → TempSupply → Prop} (moved : needed = true → s.next < size →
      Q ⟨[.varDecl value.loc (nextTemp s value.type) (some value)],
        .local value.loc (nextTemp s value.type)⟩ (afterTemp s))
    (kept : needed = false → Q ⟨[], value⟩ s) :
    Gives (spill needed value) s Q := by
  unfold spill
  cases needed with
  | true => exact (gives_freshTemp (moved rfl)).bind fun t s' ht => gives_pure ht
  | false => exact gives_pure (kept rfl)

theorem operandPair_eq (first second : Norm Hoisted) : operandPair first second = (do
    let (stmts, values) ← operands [first, second]
    return (stmts, values.headD .omitted, values.tail.headD .omitted)) := by
  simp only [operandPair, operands, operandsAfter, spillUnstable, bind_assoc, pure_bind, List.nil_append]
  congr 1
  funext a
  split
  · rename_i ha
    simp only [List.isEmpty_iff.1 ha, bind_assoc]
    congr 1
    funext b
    split <;> simp
  · simp only [bind_assoc, pure_bind]
    congr 1
    funext b
    split <;> simp

def Reserved (s : TempSupply) : Prop := tempBase.toNat ≤ s.next

theorem reserved_all : Reserved TempSupply.all := Nat.le_refl _

def Yields (x : Norm α) (Q : α → Prop) : Prop :=
  ∀ s, Reserved s → Gives x s fun a s' => Reserved s' ∧ Q a

section Yields

variable {P Q : α → Prop}

theorem yields_pure {a : α} (h : Q a) : Yields (pure a) Q := fun _ hs => gives_pure ⟨hs, h⟩

theorem Yields.bind {f : α → Norm β} {R : β → Prop} (hx : Yields x P)
    (hf : ∀ a, P a → Yields (f a) R) : Yields (x >>= f) R :=
  fun s hs => (hx s hs).bind fun a s' ha => hf a ha.2 s' ha.1

theorem Yields.mono (hx : Yields x P) (h : ∀ a, P a → Q a) : Yields x Q :=
  fun s hs => (hx s hs).mono fun a _ ha => ⟨ha.1, h a ha.2⟩

theorem Yields.and_gives (hx : Yields x P) (h : ∀ s, Gives x s fun a _ => Q a) :
    Yields x fun a => P a ∧ Q a :=
  fun s hs => ((hx s hs).and (h s)).mono fun _ _ ha => ⟨ha.1.1, ha.1.2, ha.2⟩

/-- A temporary from a reserved supply is seen to be one. -/
theorem isTemp_nextTemp (hs : Reserved s) (h : s.next < size) :
    (nextTemp s type).isTemp = true := by
  unfold Var.isTemp nextTemp
  rw [decide_eq_true_iff, le_iff_toNat_le, toNat_ofNat_of_lt' h]
  exact hs

theorem yields_freshTemp {Q : Var → Prop} (h : ∀ t, t.isTemp = true → Q t) :
    Yields (freshTemp type) Q :=
  fun _ hs => gives_freshTemp fun hlt =>
    ⟨Nat.le_succ_of_le hs, h _ (isTemp_nextTemp hs hlt)⟩

theorem yields_spill {Q : Hoisted → Prop} (moved : needed = true → ∀ t : Var, t.isTemp = true →
      Q ⟨[.varDecl value.loc t (some value)], .local value.loc t⟩)
    (kept : needed = false → Q ⟨[], value⟩) : Yields (spill needed value) Q :=
  fun _ hs => gives_spill
    (fun hn hlt => ⟨Nat.le_succ_of_le hs, moved hn _ (isTemp_nextTemp hs hlt)⟩)
    fun hn => ⟨hs, kept hn⟩

end Yields

end LuaBackend.Normalize
