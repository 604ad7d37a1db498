import LuaBackend.Proofs.Semantics.Eval

/-!
# Simulation

A target computation simulates a source computation if it ends whenever
the source does, with the same jump if it jumps, and in a state that
matches: with the same world and events and the same locals in scope. The
target has locals of its own; what is known of them is an invariant, which
a computation keeps that leaves alone the locals it rests on.

`Steps r y τ Q J` is the one judgement everything is derived from. Its
first argument is how the source ends, which may be looked at long after
the target has begun.
-/

namespace LuaBackend

open Exec

abbrev Scope := UInt32 → Bool

namespace Scope

variable {Γ : Scope} {x : UInt32}
variable {y : UInt32}

def bind (Γ : Scope) (x : UInt32) : Scope := fun y => y = x || Γ y

theorem le_bind (h : Γ y = true) : Γ.bind x y = true := by
  simp [bind, h]

theorem bind_mono {Γ' : Scope} (h : ∀ y, Γ y = true → Γ' y = true) (hy : Γ.bind x y = true) :
    Γ'.bind x y = true := by
  simp only [bind, Bool.or_eq_true] at hy ⊢
  exact hy.imp_right (h y)

def without (Γ : Scope) (x : UInt32) : Scope := fun y => y ≠ x && Γ y

def Low (Γ : Scope) : Prop := ∀ y, Γ y = true → y.toNat < tempBase.toNat

end Scope

namespace Simulation

variable {M : Machine} {α β γ δ : Type}
variable {Q : β → State M → Prop} {x : UInt32} {b : β} {body cond body' : Exec M M.Value}
variable {τ' : State M} {J' : State M → State M → Prop}

abbrev Result (M : Machine) (α : Type) := Option (Except (Jump M.Value) α × State M)

/-- Run from `τ`, the computation ends with `Q`, or with the jump of the
source and in states with `J`, or not at all like the source. -/
def Steps (r : Result M α) (y : Exec M β) (τ : State M) (Q : β → State M → Prop)
    (J : State M → State M → Prop) : Prop :=
  match y τ with
  | none => r = none
  | some (.ok b, τ') => Q b τ'
  | some (.error j, τ') => ∃ σ', r = some (.error j, σ') ∧ J σ' τ'

/-- The source ends with a value, and `R` relates the two ends. -/
def Ends (r : Result M α) (R : α → β → State M → State M → Prop) (b : β) (τ : State M) : Prop :=
  ∃ a σ, r = some (.ok a, σ) ∧ R a b σ τ

/-- The computation ends like the source, and `R` relates the ends. -/
def Agree (r : Result M α) (y : Exec M β) (τ : State M)
    (R : α → β → State M → State M → Prop) (J : State M → State M → Prop) : Prop :=
  Steps r y τ (Ends r R) J

section Rules

variable {r : Result M α} {x : Exec M α} {f : α → Exec M γ} {y : Exec M β} {g : β → Exec M δ}
variable {σ τ : State M} {J : State M → State M → Prop}
variable {R : α → β → State M → State M → Prop}

/-- The target takes steps that the source does not see. -/
theorem steps_of_ok (h : y τ = some (.ok b, τ')) (hq : Q b τ') : Steps r y τ Q J := by
  unfold Steps
  rwa [h]

theorem Steps.of_ok (hs : Steps r y τ Q J) (h : y τ = some (.ok b, τ')) : Q b τ' := by
  unfold Steps at hs
  rwa [h] at hs

theorem Steps.mono {Q' : β → State M → Prop} (hs : Steps r y τ Q J) (hq : ∀ b τ', Q b τ' → Q' b τ')
    : Steps r y τ Q' J := by
  unfold Steps at hs ⊢
  split at hs
  · exact hs
  · exact hq _ _ hs
  · exact hs

theorem Steps.exit_mono (hs : Steps r y τ Q J) (hj : ∀ σ' τ', J σ' τ' → J' σ' τ') :
    Steps r y τ Q J' := by
  unfold Steps at hs ⊢
  split at hs
  · exact hs
  · exact hs
  · obtain ⟨σ', hr, h⟩ := hs
    exact ⟨σ', hr, hj _ _ h⟩

/-- The target goes ahead of what follows in the source. -/
theorem Steps.source_bind (hs : Steps (x σ) y τ Q J) : Steps ((x >>= f) σ) y τ Q J := by
  unfold Steps at hs ⊢
  split at hs
  · exact bind_of_none hs
  · exact hs
  · obtain ⟨σ', hx, hj⟩ := hs
    exact ⟨σ', bind_of_error hx, hj⟩

/-- The target goes on while the source is still looked at. -/
theorem Steps.bind {Q' : δ → State M → Prop} (hs : Steps r y τ Q J)
    (hg : ∀ b τ', Q b τ' → Steps r (g b) τ' Q' J) : Steps r (y >>= g) τ Q' J := by
  rcases y.cases τ with h | ⟨b, τ', h⟩ | ⟨j, τ', h⟩
  · unfold Steps at hs ⊢
    rw [h] at hs
    rw [bind_of_none h]
    exact hs
  · have hrest := hg b τ' (hs.of_ok h)
    unfold Steps at hrest ⊢
    rwa [bind_of_ok h]
  · unfold Steps at hs ⊢
    rw [h] at hs
    rw [bind_of_error h]
    exact hs

/-- Source and target go on together. What is to hold at the end may look at
how the source ends. -/
theorem Agree.bind {Q : Result M γ → δ → State M → Prop} (ha : Agree (x σ) y τ R J)
    (hg : ∀ a b σ' τ', R a b σ' τ' → Steps (f a σ') (g b) τ' (Q (f a σ')) J) :
    Steps ((x >>= f) σ) (y >>= g) τ (Q ((x >>= f) σ)) J := by
  unfold Agree at ha
  rcases y.cases τ with h | ⟨b, τ', h⟩ | ⟨j, τ', h⟩
  · unfold Steps at ha ⊢
    rw [h] at ha
    rw [bind_of_none h]
    exact bind_of_none ha
  · obtain ⟨a, σ', hx, hr⟩ := ha.of_ok h
    have hrest := hg a b σ' τ' hr
    unfold Steps at hrest ⊢
    rw [bind_of_ok h, bind_of_ok hx]
    exact hrest
  · unfold Steps at ha ⊢
    rw [h] at ha
    rw [bind_of_error h]
    obtain ⟨σ', hx, hj⟩ := ha
    exact ⟨σ', bind_of_error hx, hj⟩

theorem Agree.mono {R' : α → β → State M → State M → Prop} (ha : Agree r y τ R J)
    (hr : ∀ a b σ' τ', R a b σ' τ' → R' a b σ' τ') : Agree r y τ R' J :=
  Steps.mono ha fun _ _ ⟨a, σ', h, hab⟩ => ⟨a, σ', h, hr _ _ _ _ hab⟩

theorem agree_pure {a : α} (h : R a b σ τ) : Agree ((pure a : Exec M α) σ) (pure b) τ R J :=
  steps_of_ok (pure_apply b τ) ⟨a, σ, rfl, h⟩

theorem Agree.exit_mono (ha : Agree r y τ R J) (hj : ∀ σ' τ', J σ' τ' → J' σ' τ') :
    Agree r y τ R J' := Steps.exit_mono ha hj

theorem agree_jump {j : Jump M.Value} (h : J σ τ) :
    Agree ((jump j : Exec M α) σ) (jump j : Exec M β) τ R J := ⟨σ, rfl, h⟩

/-- What the target yields does not matter if nobody looks at it. -/
theorem steps_discard {Q : State M → Prop} (hs : Steps r (y >>= fun _ => pure ()) τ (fun _ => Q) J) :
    Steps r y τ (fun _ => Q) J := by
  rcases y.cases τ with h | ⟨b, τ', h⟩ | ⟨j, τ', h⟩
  · unfold Steps at hs ⊢
    rw [bind_of_none h] at hs
    rwa [h]
  · exact steps_of_ok h (hs.of_ok (bind_of_ok h))
  · unfold Steps at hs ⊢
    rw [bind_of_error h] at hs
    rwa [h]

/-- A handler takes over where a value is thrown. -/
theorem Agree.handle {J₁ : State M → State M → Prop} {y : Exec M α}
    {R : α → α → State M → State M → Prop} {f g : M.Value → Exec M α}
    (ha : Agree (x σ) y τ R J₁) (hj : ∀ σ' τ', J₁ σ' τ' → J σ' τ')
    (hf : ∀ v σ' τ', J₁ σ' τ' → Agree (f v σ') (g v) τ' R J) :
    Agree (handle x f σ) (handle y g) τ R J := by
  unfold Agree Steps at ha ⊢
  -- The source ends as the target does; the handler is asked only if both throw.
  rcases y.cases τ with h | ⟨b, τ', h⟩ | ⟨j, τ', h⟩
  · rw [h] at ha
    simp only [Exec.handle, h]
    change x σ = none at ha
    rw [ha]
  · rw [h] at ha
    obtain ⟨a, σ', hx, hr⟩ := ha
    simp only [Exec.handle, h, hx]
    exact ⟨a, σ', rfl, hr⟩
  · rw [h] at ha
    obtain ⟨σ', hx, h'⟩ := ha
    cases j with
    | throw v =>
      have hrest := hf v σ' τ' h'
      unfold Agree Steps at hrest
      simp only [Exec.handle, h, hx]
      exact hrest
    | brk =>
      simp only [Exec.handle, h, hx]
      exact ⟨σ', rfl, hj _ _ h'⟩
    | cont =>
      simp only [Exec.handle, h, hx]
      exact ⟨σ', rfl, hj _ _ h'⟩
    | ret =>
      simp only [Exec.handle, h, hx]
      exact ⟨σ', rfl, hj _ _ h'⟩

end Rules

abbrev Known (M : Machine) := (UInt32 → M.Value) → Prop

/-- Same world and events, same locals in scope, and the invariant holds of
the second. -/
structure Match (Γ : Scope) (I : Known M) (σ τ : State M) : Prop where
  world : σ.world = τ.world
  trace : σ.trace = τ.trace
  locals : ∀ y, Γ y = true → σ.locals y = τ.locals y
  known : I τ.locals

def Same (Γ : Scope) (I : Known M) (a b : α) (σ τ : State M) : Prop := a = b ∧ Match Γ I σ τ

def Rests (I : Known M) (C : UInt32 → Prop) : Prop :=
  ∀ f g, (∀ y, C y → f y = g y) → I f → I g

section Matching

variable {Γ : Scope} {I : Known M} {C : UInt32 → Prop} {σ τ : State M} {v : M.Value}
variable {I' : Known M}

theorem State.locals_set_self (σ : State M) (x : UInt32) (v : M.Value) :
    (σ.set x v).locals x = v := if_pos rfl

theorem State.locals_set_ne (σ : State M) {y : UInt32} (v : M.Value) (h : y ≠ x) :
    (σ.set x v).locals y = σ.locals y := if_neg h

section

variable (h : Match Γ I σ τ)
include h

theorem Match.scope_mono {Γ' : Scope} (hs : ∀ y, Γ' y = true → Γ y = true) : Match Γ' I σ τ :=
  ⟨h.world, h.trace, fun y hy => h.locals y (hs y hy), h.known⟩

theorem Match.known_mono (hi : I' τ.locals) : Match Γ I' σ τ := ⟨h.world, h.trace, h.locals, hi⟩

/-- All that is known of the locals are the locals themselves. -/
theorem Match.self : Match Γ (· = τ.locals) σ τ := h.known_mono rfl

/-- Both sides set a local that the invariant does not look at. -/
theorem Match.set (hi : Rests I C) (hx : ¬ C x) : Match (Γ.bind x) I (σ.set x v) (τ.set x v) := by
  refine ⟨h.world, h.trace, fun y hy => ?_, hi _ _ (fun y hy => ?_) h.known⟩
  · by_cases hyx : y = x
    · rw [hyx, State.locals_set_self, State.locals_set_self]
    · rw [State.locals_set_ne _ _ hyx, State.locals_set_ne _ _ hyx]
      refine h.locals y ?_
      simpa [Scope.bind, hyx] using hy
  · rw [State.locals_set_ne]
    rintro rfl
    exact hx hy

/-- The target sets a local outside of the scope and the invariant. -/
theorem Match.set_target (hi : Rests I C) (hΓ : Γ x = false) (hx : ¬ C x) :
    Match Γ I σ (τ.set x v) := by
  refine ⟨h.world, h.trace, fun y hy => ?_, hi _ _ (fun y hy => ?_) h.known⟩
  · rw [State.locals_set_ne]
    · exact h.locals y hy
    · rintro rfl
      exact nomatch hΓ.symm.trans hy
  · rw [State.locals_set_ne]
    rintro rfl
    exact hx hy

end

theorem Rests.mono {C' : UInt32 → Prop} (h : Rests I C) (hc : ∀ y, C y → C' y) : Rests I C' :=
  fun f g hfg hf => h f g (fun y hy => hfg y (hc y hy)) hf

theorem Rests.and (h : Rests I C) (h' : Rests I' C) : Rests (fun f => I f ∧ I' f) C :=
  fun f g hfg hf => ⟨h f g hfg hf.1, h' f g hfg hf.2⟩

theorem rests_local (hx : C x) : Rests (fun f => f x = v) C :=
  fun _ _ hfg hf => (hfg x hx).symm.trans hf

variable {J : State M → State M → Prop}

theorem agree_get (h : Match Γ I σ τ) (hx : Γ x = true) : Agree (get x σ) (get x) τ (Same Γ I) J :=
  ⟨σ.locals x, σ, rfl, h.locals x hx, h⟩

theorem agree_read (f : M.World → M.Value) (h : Match Γ I σ τ) :
    Agree (read f σ) (read f) τ (Same Γ I) J :=
  ⟨f σ.world, σ, rfl, congrArg f h.world, h⟩

theorem agree_perform (event : Event M.Value) (h : Match Γ I σ τ) :
    Agree (perform event σ) (perform event) τ (Same Γ I) (Match Γ I) := by
  have hafter (w : M.World) : Match Γ I { σ with world := w, trace := σ.trace ++ [event] }
      { τ with world := w, trace := τ.trace ++ [event] } :=
    ⟨rfl, congrArg (· ++ [event]) h.trace, h.locals, h.known⟩
  unfold Agree Steps perform
  rw [h.world]
  cases hp : M.perform event τ.world with
  | mk result w =>
    cases result with
    | ok v => exact ⟨v, _, rfl, rfl, hafter w⟩
    | error => exact ⟨_, rfl, hafter w⟩

variable {x y : Exec M Bool}

/-- A break of the target may stand for the end of the loop. -/
theorem Agree.round (h : Agree (x σ) y τ (Same Γ I) (Match Γ I)) :
    Agree (round x σ) (round y) τ (Same Γ I) (Match Γ I) := by
  unfold Agree Steps at h ⊢
  rcases y.cases τ with hy | ⟨b, τ', hy⟩ | ⟨j, τ', hy⟩
  · rw [hy] at h
    simp only [Exec.round, hy]
    change x σ = none at h
    rw [h]
  · rw [hy] at h
    obtain ⟨a, σ', hx, hr⟩ := h
    simp only [Exec.round, hy, hx]
    exact ⟨a, σ', rfl, hr⟩
  · rw [hy] at h
    obtain ⟨σ', hx, hm⟩ := h
    cases j with
    | brk =>
      simp only [Exec.round, hy, hx]
      exact ⟨false, σ', rfl, rfl, hm⟩
    | cont =>
      simp only [Exec.round, hy, hx]
      exact ⟨true, σ', rfl, rfl, hm⟩
    | ret =>
      simp only [Exec.round, hy, hx]
      exact ⟨σ', rfl, hm⟩
    | throw =>
      simp only [Exec.round, hy, hx]
      exact ⟨σ', rfl, hm⟩

/-- Rounds that agree make loops that agree. -/
theorem agree_loop (h : ∀ σ τ, Match Γ I σ τ →
      Agree (round x σ) (round y) τ (Same Γ I) (Match Γ I)) (rounds : Nat) :
    ∀ σ τ, Match Γ I σ τ → Agree (loop x rounds σ) (loop y rounds) τ (Same Γ I) (Match Γ I) := by
  induction rounds with
  | zero =>
    intro σ τ _
    exact rfl
  | succ k ih =>
    intro σ τ hm
    refine (h σ τ hm).bind (Q := fun r => Ends r (Same Γ I)) ?_
    rintro a b σ' τ' ⟨rfl, hm'⟩
    cases a with
    | true => exact ih σ' τ' hm'
    | false => exact agree_pure ⟨rfl, hm'⟩

def loopFrom (first x : Exec M Bool) : Nat → Exec M M.Value
  | 0 => fun _ => none
  | rounds + 1 => do
    if ← round first then loop x rounds else return M.null

theorem loop_eq_loopFrom (rounds : Nat) : loop x rounds = loopFrom x x rounds := by
  cases rounds <;> rfl

theorem loopAfter_eq_loopFrom (rounds : Nat) : loopAfter cond body rounds =
    loopFrom (do let _ ← body; return true) (testThen cond body) rounds := by
  cases rounds <;> rfl

/-- The same with another first round. -/
theorem agree_loopFrom {first first' : Exec M Bool}
    (hf : Agree (round first σ) (round first') τ (Same Γ I) (Match Γ I))
    (h : ∀ σ τ, Match Γ I σ τ →
      Agree (round x σ) (round y) τ (Same Γ I) (Match Γ I)) (rounds : Nat) :
    Agree (loopFrom first x rounds σ) (loopFrom first' y rounds) τ (Same Γ I) (Match Γ I) := by
  cases rounds with
  | zero => exact rfl
  | succ n =>
    refine hf.bind (Q := fun r => Ends r (Same Γ I)) ?_
    rintro a _ σ' τ' ⟨rfl, hm⟩
    cases a with
    | true => exact agree_loop h n σ' τ' hm
    | false => exact agree_pure ⟨rfl, hm⟩

theorem agree_testThen {cond' : Exec M M.Value} (hc : Agree (cond σ) cond' τ (Same Γ I) (Match Γ I))
    (hb : ∀ σ τ, Match Γ I σ τ → Agree (body σ) body' τ (fun _ _ => Match Γ I) (Match Γ I)) :
    Agree (testThen cond body σ) (testThen cond' body') τ (Same Γ I) (Match Γ I) := by
  refine hc.bind (Q := fun r => Ends r (Same Γ I)) ?_
  rintro a b σ' τ' ⟨rfl, hm⟩
  by_cases ht : M.truth a = true
  · simp only [ht, if_true]
    refine (hb σ' τ' hm).bind (Q := fun r => Ends r (Same Γ I)) ?_
    exact fun _ _ _ _ hm' => agree_pure ⟨rfl, hm'⟩
  · simp only [ht]
    exact agree_pure ⟨rfl, hm⟩

/-- The body runs with the local of the loop in scope. -/
theorem agree_advance {y : UInt32} {it : M.Value} (hm : Match Γ I σ τ) (hI : Rests I C) (hy : ¬ C y)
    (hb : ∀ σ τ, Match (Γ.bind y) I σ τ →
      Agree (body σ) body' τ (fun _ _ => Match (Γ.bind y) I) (Match (Γ.bind y) I)) :
    Agree (advance y it body σ) (advance y it body') τ (Same Γ I) (Match Γ I) := by
  refine (agree_perform (.hasNext it) hm).bind (Q := fun r => Ends r (Same Γ I)) ?_
  rintro more _ σ₁ τ₁ ⟨rfl, hm₁⟩
  by_cases ht : M.truth more = true
  · simp only [ht, if_true]
    refine (agree_perform (.next it) hm₁).bind (Q := fun r => Ends r (Same Γ I)) ?_
    rintro element _ σ₂ τ₂ ⟨rfl, hm₂⟩
    have hrun := (hb _ _ (hm₂.set (v := element) hI hy)).exit_mono
      fun _ _ hj => hj.scope_mono fun _ => Scope.le_bind
    refine hrun.bind (Q := fun r => Ends r (Same Γ I)) ?_
    exact fun _ _ _ _ hm₃ => agree_pure ⟨rfl, hm₃.scope_mono fun _ => Scope.le_bind⟩
  · simp only [ht]
    exact agree_pure ⟨rfl, hm₁⟩

end Matching

end Simulation

end LuaBackend
