/-!
# Runs that end in more than one way

A run over a state ends with a value or with an exit, or it needs more
rounds of a loop than it is granted. `after`, which goes on from the end
of a run, is the one way of putting runs together; a sequence, a loop, a
handler and a change of exits are all made with it.
-/

namespace LuaBackend.Control

def Run (σ ε α : Type) : Type := σ → Option (Except ε α × σ)

namespace Run

variable {σ ε ε' ε'' α β γ V : Type}
variable {k k' : Except ε α → Run σ ε' β} {R : ε' → Prop}

def after (x : Run σ ε α) (k : Except ε α → Run σ ε' β) : Run σ ε' β := fun s =>
  match x s with
  | none => none
  | some (r, s') => k r s'

def exit (e : ε) : Run σ ε α := fun s => some (.error e, s)

instance : Monad (Run σ ε) where
  pure a := fun s => some (.ok a, s)
  bind x f := x.after fun
    | .ok a => f a
    | .error e => exit e

def update (f : σ → σ) : Run σ ε Unit := fun s => some (.ok (), f s)

def attempt (thrown : V → ε) (f : σ → Except V α × σ) : Run σ ε α := fun s =>
  some ((f s).1.mapError thrown, (f s).2)

def mapExit (f : ε → ε') (x : Run σ ε α) : Run σ ε' α := x.after fun
  | .ok a => pure a
  | .error e => exit (f e)

def void (x : Run σ ε α) : Run σ ε Unit := do
  let _ ← x
  return ()

def rounds (round : Run σ ε Bool) : Nat → Run σ ε Unit
  | 0 => fun _ => none
  | n + 1 => do if ← round then rounds round n else pure ()

theorem after_after (x : Run σ ε α) (k : Except ε α → Run σ ε' β)
    (k' : Except ε' β → Run σ ε'' γ) : (x.after k).after k' = x.after fun r => (k r).after k' := by
  funext s
  unfold after
  cases x s <;> rfl

/-- Only the ends that the run has matter. -/
theorem after_congr {x : Run σ ε α} (h : ∀ s r s', x s = some (r, s') → k r = k' r) :
    x.after k = x.after k' := by
  funext s
  unfold after
  rcases hx : x s with _ | ⟨r, s'⟩
  · rfl
  · exact congrFun (h s r s' hx) s'

theorem after_self (x : Run σ ε α) (k : Except ε α → Run σ ε α)
    (hok : ∀ a, k (.ok a) = pure a) (hexit : ∀ e, k (.error e) = exit e) : x.after k = x := by
  funext s
  unfold after
  rcases x s with _ | ⟨e | a, s'⟩
  · rfl
  · exact congrFun (hexit e) s'
  · exact congrFun (hok a) s'

section

variable (x : Run σ ε α) (f : α → Run σ ε β)
include x f

theorem bind_eq : x >>= f = x.after fun | .ok a => f a | .error e => exit e := rfl

theorem after_bind (k : Except ε β → Run σ ε' γ) :
    (x >>= f).after k = x.after fun | .ok a => (f a).after k | .error e => k (.error e) := by
  rw [bind_eq, after_after]
  congr 1
  funext r
  cases r <;> rfl

theorem bind_bind (g : β → Run σ ε γ) : x >>= f >>= g = x >>= fun a => f a >>= g := by
  rw [bind_eq (x >>= f), after_bind]
  rfl

end

instance : LawfulMonad (Run σ ε) :=
  LawfulMonad.mk' (Run σ ε) (fun x => after_self x _ (fun _ => rfl) fun _ => rfl)
    (fun _ _ => rfl) bind_bind

theorem void_bind (x : Run σ ε α) (f : α → Run σ ε β) :
    void (x >>= f) = x >>= fun a => void (f a) := bind_bind x f _

/-- What does not depend on the value follows the run without it. -/
theorem void_bind_const (x : Run σ ε α) (y : Run σ ε β) :
    (x >>= fun _ => y) = void x >>= fun _ => y :=
  (bind_bind x (fun _ => pure ()) fun _ => y).symm

theorem void_unit (x : Run σ ε Unit) : void x = x :=
  after_self x _ (fun _ => rfl) fun _ => rfl

section MapExit

variable (f : ε → ε')

theorem mapExit_pure (a : α) : mapExit f (pure a : Run σ ε α) = pure a := rfl

theorem mapExit_update (g : σ → σ) : mapExit f (update g) = update g := rfl

theorem mapExit_attempt (thrown : V → ε) (g : σ → Except V α × σ) :
    mapExit f (attempt thrown g) = attempt (fun v => f (thrown v)) g := by
  funext s
  unfold mapExit after attempt
  rcases g s with ⟨v | a, s'⟩ <;> rfl

theorem mapExit_bind (x : Run σ ε α) (g : α → Run σ ε β) :
    mapExit f (x >>= g) = mapExit f x >>= fun a => mapExit f (g a) := by
  unfold mapExit
  rw [after_bind, bind_eq, after_after]
  congr 1
  funext r
  cases r <;> rfl

theorem mapExit_ite (c : Prop) [Decidable c] (x y : Run σ ε α) :
    mapExit f (if c then x else y) = if c then mapExit f x else mapExit f y :=
  apply_ite _ _ _ _

/-- A loop with changed exits is a loop of changed rounds. -/
theorem mapExit_rounds (round : Run σ ε Bool) (n : Nat) :
    mapExit f (rounds round n) = rounds (mapExit f round) n := by
  induction n with
  | zero => rfl
  | succ n ih =>
    rw [rounds, mapExit_bind, rounds]
    congr 1
    funext again
    rw [mapExit_ite, ih, mapExit_pure]

end MapExit

/-- Every exit of the run satisfies `P`. -/
def Exits (x : Run σ ε α) (P : ε → Prop) : Prop := ∀ s e s', x s = some (.error e, s') → P e

section Exits

variable {P Q : ε → Prop} {x : Run σ ε α}

theorem exits_pure (a : α) : Exits (pure a : Run σ ε α) P := fun _ _ _ h => nomatch h

theorem exits_exit {e : ε} (h : P e) : Exits (exit e : Run σ ε α) P := by
  rintro s e' s' ⟨⟩
  exact h

theorem exits_update (f : σ → σ) : Exits (update f : Run σ ε Unit) P := fun _ _ _ h => nomatch h

theorem exits_attempt {thrown : V → ε} {f : σ → Except V α × σ} (h : ∀ v, P (thrown v)) :
    Exits (attempt thrown f) P := by
  intro s e s' hs
  unfold attempt at hs
  generalize f s = p at hs
  rcases p with ⟨v | a, s₁⟩
  · cases hs
    exact h v
  · cases hs

theorem Exits.mono (h : Exits x P) (hPQ : ∀ e, P e → Q e) : Exits x Q :=
  fun s e s' hs => hPQ e (h s e s' hs)

/-- The exits that it has after each end. -/
theorem Exits.after (h : Exits x P) (hok : ∀ a, Exits (k (.ok a)) R)
    (hexit : ∀ e, P e → Exits (k (.error e)) R) :
    Exits (x.after k) R := by
  intro s e s' hs
  unfold Run.after at hs
  rcases hx : x s with _ | ⟨r | a, s₁⟩
  · rw [hx] at hs
    exact nomatch hs
  · rw [hx] at hs
    exact hexit r (h s r s₁ hx) s₁ e s' hs
  · rw [hx] at hs
    exact hok a s₁ e s' hs

theorem Exits.bind {f : α → Run σ ε β} (h : Exits x P) (hf : ∀ a, Exits (f a) P) :
    Exits (x >>= f) P := h.after hf fun _ he => exits_exit he

theorem Exits.mapExit {f : ε → ε'} (h : Exits x P) (hf : ∀ e, P e → R (f e)) :
    Exits (mapExit f x) R := h.after exits_pure fun e he => exits_exit (hf e he)

theorem exits_rounds {round : Run σ ε Bool} (h : Exits round P) (n : Nat) :
    Exits (rounds round n) P := by
  induction n with
  | zero => exact fun _ _ _ hs => nomatch hs
  | succ n ih =>
    refine h.bind fun again => ?_
    cases again
    · exact exits_pure ()
    · exact ih

/-- Two ways of going on that agree on the exits of the run. -/
theorem Exits.after_congr (h : Exits x P) (hok : ∀ a, k (.ok a) = k' (.ok a))
    (hexit : ∀ e, P e → k (.error e) = k' (.error e)) :
    x.after k = x.after k' := by
  refine Run.after_congr fun s r s' hs => ?_
  cases r with
  | ok a => exact hok a
  | error e => exact hexit e (h s e s' hs)

end Exits

end Run

end LuaBackend.Control
