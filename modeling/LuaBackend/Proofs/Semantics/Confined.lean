import LuaBackend.Proofs.Semantics.Eval
import Mathlib.Data.List.Forall2

/-!
# Computations that agree on some states

A property of states may hold of every state that a program comes to
without holding of all states. Two computations `AgreeOn` it if they do
the same from every state with the property, and one `Tracks` the other if
it also leaves states with the property only. What a tree does is put
together from what its parts do by operations that keep such a relation
(`Congruence`).
-/

namespace LuaBackend

variable {es es' : List Expr}
variable {part part' : Option Expr}

namespace Exec

variable {M : Machine} {α β : Type}

def Maintains (P : State M → Prop) (x : Exec M α) : Prop :=
  ∀ σ, P σ → ∀ r σ', x σ = some (r, σ') → P σ'

def AgreeOn (P : State M → Prop) (x y : Exec M α) : Prop := ∀ σ, P σ → x σ = y σ

/-- They also end in states with the property. -/
structure Tracks (P : State M → Prop) (x y : Exec M α) : Prop where
  agree : AgreeOn P x y
  keeps : Maintains P x

variable {P : State M → Prop} {x y : Exec M α} {f g : α → Exec M β}

theorem AgreeOn.refl (x : Exec M α) : AgreeOn P x x := fun _ _ => rfl

theorem AgreeOn.trans {z : Exec M α} (h : AgreeOn P x y) (h' : AgreeOn P y z) : AgreeOn P x z :=
  fun σ hσ => (h σ hσ).trans (h' σ hσ)

/-- What agrees with a computation that keeps the property keeps it. -/
theorem AgreeOn.keeps (h : AgreeOn P x y) (hx : Maintains P x) : Maintains P y :=
  fun σ hσ r σ' hr => hx σ hσ r σ' ((h σ hσ).trans hr)

theorem Tracks.trans {z : Exec M α} (h : Tracks P x y) (h' : Tracks P y z) : Tracks P x z :=
  ⟨h.agree.trans h'.agree, h.keeps⟩

/-- A computation that ends where it starts. -/
theorem tracks_of_fixed (h : ∀ σ, ∃ r, x σ = some (r, σ)) : Tracks P x x := by
  refine ⟨.refl x, fun σ hσ r σ' hr => ?_⟩
  obtain ⟨r', hfixed⟩ := h σ
  rw [hfixed] at hr
  cases hr
  exact hσ

theorem tracks_pure (a : α) : Tracks P (pure a : Exec M α) (pure a) :=
  tracks_of_fixed fun _ => ⟨_, rfl⟩

theorem tracks_jump (j : Jump M.Value) : Tracks P (jump j : Exec M α) (jump j) :=
  tracks_of_fixed fun _ => ⟨_, rfl⟩

/-- What follows agrees where the computation ends. -/
theorem Tracks.bind_agree (h : Tracks P x y) (hf : ∀ a, AgreeOn P (f a) (g a)) :
    AgreeOn P (x >>= f) (y >>= g) := by
  intro σ hσ
  rcases cases x σ with hx | ⟨a, σ', hx⟩ | ⟨j, σ', hx⟩
  · rw [bind_of_none hx, bind_of_none ((h.agree σ hσ).symm.trans hx)]
  · rw [bind_of_ok hx, bind_of_ok ((h.agree σ hσ).symm.trans hx)]
    exact hf a σ' (h.keeps σ hσ _ _ hx)
  · rw [bind_of_error hx, bind_of_error ((h.agree σ hσ).symm.trans hx)]

theorem Maintains.bind (hx : Maintains P x) (hf : ∀ a, Maintains P (f a)) : Maintains P (x >>= f) := by
  intro σ hσ r σ'' hr
  rcases cases x σ with hs | ⟨a, σ', hs⟩ | ⟨j, σ', hs⟩
  · rw [bind_of_none hs] at hr
    exact nomatch hr
  · rw [bind_of_ok hs] at hr
    exact hf a σ' (hx σ hσ _ _ hs) r σ'' hr
  · rw [bind_of_error hs] at hr
    cases hr
    exact hx σ hσ _ _ hs

/-- Both parts may rely on the property. -/
theorem Tracks.bind (h : Tracks P x y) (hf : ∀ a, Tracks P (f a) (g a)) :
    Tracks P (x >>= f) (y >>= g) :=
  ⟨h.bind_agree fun a => (hf a).agree, h.keeps.bind fun a => (hf a).keeps⟩

/-- A round of a loop, which a break or a continue may end. -/
theorem Tracks.round {x y : Exec M Bool} (h : Tracks P x y) : Tracks P (round x) (round y) := by
  refine ⟨fun σ hσ => ?_, fun σ hσ r σ'' hr => ?_⟩
  · unfold Exec.round
    rw [h.agree σ hσ]
  · unfold Exec.round at hr
    have hends : ∀ q σ', x σ = some (q, σ') → P σ' := h.keeps σ hσ
    split at hr <;> rename_i hx
    · cases hr
      exact hends _ _ hx
    · cases hr
      exact hends _ _ hx
    · exact hends _ _ hr

/-- The handler starts where the computation was left. -/
theorem Tracks.handle {handler handler' : M.Value → Exec M α} (h : Tracks P x y)
    (hh : ∀ v, Tracks P (handler v) (handler' v)) :
    Tracks P (handle x handler) (handle y handler') := by
  refine ⟨fun σ hσ => ?_, fun σ hσ r σ'' hr => ?_⟩
  · unfold Exec.handle
    rw [← h.agree σ hσ]
    split
    · rename_i hx
      exact (hh _).agree _ (h.keeps σ hσ _ _ hx)
    · rfl
  · unfold Exec.handle at hr
    split at hr
    · rename_i hx
      exact (hh _).keeps _ (h.keeps σ hσ _ _ hx) r σ'' hr
    · exact h.keeps σ hσ r σ'' hr

/-- A relation that is kept by the operations that programs are put together
with. -/
structure Congruence (M : Machine) where
  rel : {α : Type} → Exec M α → Exec M α → Prop
  pure : ∀ {α : Type} (a : α), rel (pure a) (pure a)
  jump : ∀ {α : Type} (j : Jump M.Value), rel (jump j : Exec M α) (jump j)
  stuck : ∀ {α : Type}, rel (fun _ => none : Exec M α) fun _ => none
  bind : ∀ {α β : Type} {x y : Exec M α} {f g : α → Exec M β}, rel x y →
    (∀ a, rel (f a) (g a)) → rel (x >>= f) (y >>= g)
  round : ∀ {x y : Exec M Bool}, rel x y → rel (round x) (round y)
  handle : ∀ {α : Type} {x y : Exec M α} {h h' : M.Value → Exec M α}, rel x y →
    (∀ v, rel (h v) (h' v)) → rel (handle x h) (handle y h')

namespace Congruence

variable (C : Congruence M)

section Loops

variable {x y : Exec M Bool} {cond cond' body body' : Exec M M.Value}

/-- By induction on the number of rounds. -/
theorem loop (h : C.rel x y) (rounds : Nat) : C.rel (loop x rounds) (loop y rounds) := by
  induction rounds with
  | zero => exact C.stuck
  | succ rounds ih =>
    refine C.bind (C.round h) fun again => ?_
    split
    · exact ih
    · exact C.pure _

theorem testThen (hc : C.rel cond cond') (hb : C.rel body body') :
    C.rel (testThen cond body) (testThen cond' body') := by
  refine C.bind hc fun v => ?_
  split
  · exact C.bind hb fun _ => C.pure true
  · exact C.pure false

/-- The first round comes before the test. -/
theorem loopAfter (hc : C.rel cond cond') (hb : C.rel body body') (rounds : Nat) :
    C.rel (loopAfter cond body rounds) (loopAfter cond' body' rounds) := by
  cases rounds with
  | zero => exact C.stuck
  | succ rounds =>
    refine C.bind (C.round (C.bind hb fun _ => C.pure true)) fun again => ?_
    split
    · exact C.loop (C.testThen hc hb) rounds
    · exact C.pure _

/-- One step of an iterator and the body after it. -/
theorem advance {z : UInt32} {it : M.Value}
    (hmore : C.rel (perform (.hasNext it)) (perform (.hasNext it)))
    (hnext : C.rel (do set z (← perform (.next it))) (do set z (← perform (.next it))))
    (hb : C.rel body body') : C.rel (advance z it body) (advance z it body') := by
  have hstep (b : Exec M M.Value) : Exec.advance z it b = do
      if M.truth (← perform (.hasNext it)) then
        (do set z (← perform (.next it)))
        let _ ← b
        return true
      else return false := by
    unfold Exec.advance
    refine congrArg _ (funext fun v => ?_)
    split
    · rw [bind_assoc]
    · rfl
  rw [hstep, hstep]
  refine C.bind hmore fun v => ?_
  split
  · exact C.bind hnext fun _ => C.bind hb fun _ => C.pure _
  · exact C.pure _

end Loops

/-- The values of a case are tried until one matches. -/
theorem matchAny {xs ys : List (Exec M M.Value)} (subject : M.Value)
    (h : List.Forall₂ C.rel xs ys) : C.rel (matchAny subject xs) (matchAny subject ys) := by
  induction h with
  | nil => exact C.pure _
  | cons hx _ ih =>
    refine C.bind hx fun v => ?_
    split
    · exact C.pure _
    · exact ih

/-- The first case that matches, or the default. -/
theorem select {default default' : Exec M M.Value}
    {cs cs' : List (List (Exec M M.Value) × Exec M M.Value)} (subject : M.Value)
    (hd : C.rel default default')
    (h : List.Forall₂ (fun c c' => List.Forall₂ C.rel c.1 c'.1 ∧ C.rel c.2 c'.2) cs cs') :
    C.rel (select subject default cs) (select subject default' cs') := by
  induction h with
  | nil => exact hd
  | cons hc _ ih =>
    refine C.bind (C.matchAny subject hc.1) fun found => ?_
    split
    · exact hc.2
    · exact ih

def Catches (var : Var) : Prop :=
  ∀ v, M.catches var.type v = true → C.rel (set var.id v) (set var.id v)

/-- The first handler that catches what was thrown, or the same jump. -/
theorem rescue {hs hs' : List (Var × Exec M M.Value)} (thrown : M.Value)
    (h : List.Forall₂ (fun c c' => c'.1 = c.1 ∧ C.Catches c.1 ∧ C.rel c.2 c'.2) hs hs') :
    C.rel (rescue thrown hs) (rescue thrown hs') := by
  induction h with
  | nil => exact C.jump _
  | @cons c c' _ _ hc _ ih =>
    obtain ⟨var, body⟩ := c
    obtain ⟨_, body'⟩ := c'
    obtain ⟨rfl, htakes, hbody⟩ := hc
    unfold Exec.rescue
    split
    · rename_i hcatch
      exact C.bind (htakes thrown hcatch) fun _ => hbody
    · exact ih

/-! ## Parts of trees -/

section Parts

variable {rounds : Nat}

abbrev value (rounds : Nat) (a b : Expr) : Prop := C.rel (eval M rounds a) (eval M rounds b)

theorem evalList (h : List.Forall₂ (C.value rounds) es es') :
    C.rel (evalList M rounds es) (evalList M rounds es') := by
  induction h with
  | nil => exact C.pure _
  | cons he _ ih => exact C.bind he fun _ => C.bind ih fun _ => C.pure _

/-- The fields of an object are a list of values. -/
theorem evalFields {fs fs' : List (FieldInit Expr)}
    (h : List.Forall₂ (C.value rounds) (fs.map FieldInit.value) (fs'.map FieldInit.value)) :
    C.rel (evalFields M rounds fs) (evalFields M rounds fs') := by
  rw [evalFields_eq, evalFields_eq]
  exact C.evalList h

theorem evalReceiver (h : Option.Rel (C.value rounds) part part') :
    C.rel (evalReceiver M rounds part) (evalReceiver M rounds part') := by
  cases h with
  | none => exact C.pure _
  | some h => exact C.bind h fun _ => C.pure _

/-- An optional part, which is null if missing. -/
theorem evalPart (h : Option.Rel (C.value rounds) part part') :
    C.rel (evalPart M rounds part) (evalPart M rounds part') := by
  cases h with
  | none => exact C.pure _
  | some h => exact h

/-- Statements in order; the last one gives the value. -/
theorem evalSeq (h : List.Forall₂ (C.value rounds) es es') (last : M.Value) :
    C.rel (evalSeq M rounds last es) (evalSeq M rounds last es') := by
  induction h generalizing last with
  | nil => exact C.pure _
  | cons he _ ih => exact C.bind he fun v => ih v

theorem evalEach (h : List.Forall₂ (C.value rounds) es es') :
    List.Forall₂ C.rel (evalEach M rounds es) (evalEach M rounds es') := by
  induction h with
  | nil => exact .nil
  | cons he _ ih => exact .cons he ih

/-- Each case of a switch, with its values and its body. -/
theorem evalCases {cs cs' : List (Case Expr)}
    (h : List.Forall₂ (fun c c' => List.Forall₂ (C.value rounds) c.values c'.values ∧
      Option.Rel (C.value rounds) c.body c'.body) cs cs') :
    List.Forall₂ (fun c c' => List.Forall₂ C.rel c.1 c'.1 ∧ C.rel c.2 c'.2)
      (evalCases M rounds cs) (evalCases M rounds cs') := by
  induction h with
  | nil => exact .nil
  | cons hc _ ih => exact .cons ⟨C.evalEach hc.1, C.evalPart hc.2⟩ ih

theorem evalHandlers {hs hs' : List (Handler Expr)}
    (h : List.Forall₂ (fun c c' => c.var = c'.var ∧ C.Catches c.var ∧
      Option.Rel (C.value rounds) c.body c'.body) hs hs') :
    List.Forall₂ (fun c c' => c'.1 = c.1 ∧ C.Catches c.1 ∧ C.rel c.2 c'.2)
      (evalHandlers M rounds hs) (evalHandlers M rounds hs') := by
  induction h with
  | nil => exact .nil
  | cons hc _ ih => exact .cons ⟨hc.1.symm, hc.2.1, C.evalPart hc.2.2⟩ ih

end Parts

end Congruence

theorem tracks_stuck {α : Type} : Tracks P (fun _ => none : Exec M α) fun _ => none := by
  refine ⟨.refl _, fun _ _ _ _ hr => ?_⟩
  cases hr

abbrev tracking (P : State M → Prop) : Congruence M where
  rel := Tracks P
  pure := tracks_pure
  jump := tracks_jump
  stuck := tracks_stuck
  bind := .bind
  round := .round
  handle := .handle

/-- The steps of an iterator keep the property. -/
structure Iterates (P : State M → Prop) (z : UInt32) : Prop where
  hasNext : ∀ it, Maintains P (perform (.hasNext it))
  next : ∀ it, Maintains P (do set z (← perform (.next it)))

def Takes (P : State M → Prop) (var : Var) : Prop :=
  ∀ v, M.catches var.type v = true → Maintains P (set var.id v)

/-- A step of the loop over an iterator keeps the property. -/
theorem Iterates.advance {z : UInt32} {body body' : Exec M M.Value} (h : Iterates P z)
    (it : M.Value) (hb : Tracks P body body') : Tracks P (advance z it body) (advance z it body') :=
  (tracking P).advance ⟨.refl _, h.hasNext it⟩ ⟨.refl _, h.next it⟩ hb

theorem Takes.catches {var : Var} (h : Takes P var) : (tracking P).Catches var :=
  fun v hv => ⟨.refl _, h v hv⟩

/-! ## Operators

What is stored may be anything, so an operation that stores agrees with
another one and need not track it. -/

section Operators

variable {lhs lhs' rhs rhs' : Exec M M.Value} {place place' : Exec M (Place M.Value)}

theorem tracks_load (p : Place M.Value) : Tracks P (load p) (load p) := by
  cases p with
  | «local» => exact tracks_of_fixed fun _ => ⟨_, rfl⟩
  | member | element => exact tracks_of_fixed fun _ => ⟨_, rfl⟩
  | nowhere => exact tracks_pure _

/-- Only the operands have to keep the property. -/
theorem agreeOn_binary (op : BinaryOp) (hl : Tracks P lhs lhs') (hp : Tracks P place place')
    (hr : Tracks P rhs rhs') :
    AgreeOn P (binary op lhs place rhs) (binary op lhs' place' rhs') := by
  cases op with
  | assign => exact hp.bind_agree fun _ => hr.bind_agree fun _ => .refl _
  | compound =>
    exact hp.bind_agree fun p => (tracks_load p).bind_agree fun _ => hr.bind_agree fun _ => .refl _
  | and =>
    refine hl.bind_agree fun a => ?_
    split
    · exact hr.agree
    · exact .refl _
  | or =>
    refine hl.bind_agree fun a => ?_
    split
    · exact .refl _
    · exact hr.agree
  | nullCoalesce =>
    refine hl.bind_agree fun a => ?_
    split
    · exact hr.agree
    · exact .refl _
  | _ => exact hl.bind_agree fun _ => hr.bind_agree fun _ => .refl _

theorem agreeOn_unary (op : UnaryOp) (isPost : Bool) (ho : Tracks P lhs lhs')
    (hp : Tracks P place place') :
    AgreeOn P (unary op isPost lhs place) (unary op isPost lhs' place') := by
  unfold unary
  split
  · exact hp.bind_agree fun _ => .refl _
  · exact ho.bind_agree fun _ => .refl _

end Operators

end Exec

section

open Exec

variable {M : Machine} {rounds : Nat}

def evalCallee (M : Machine) (rounds : Nat) : Expr → Exec M (Callee M.Value)
  | .field _ _ ref receiver => do return .member ref (← evalReceiver M rounds receiver)
  | .ident _ _ name => pure (.named name)
  | e => do return .value (← eval M rounds e)

/-- A callee that is a member is not read as a value. -/
theorem eval_call (loc : Loc) (type : Ty) (callee : Expr) (args : List Expr) :
    eval M rounds (.call loc type callee args) = (do
      let f ← evalCallee M rounds callee
      let vs ← evalList M rounds args
      perform (.call f vs)) := by
  cases callee <;> simp only [eval, evalCallee, bind_assoc, pure_bind]

end

end LuaBackend
