import LuaBackend.Proofs.Normalize.Discipline.Statements

/-!
# The prediction of hoisted statements

`Expr.hoists` says from the shape of a tree whether taking its value needs
statements. Lowering relies on it without looking again: a loop whose
condition is said to need none drops them, and a case value must have
none. `Predicted` says that the lowering of a node keeps to the
prediction, and fails for want of temporaries only. Every disciplined
lowering does.
-/

namespace LuaBackend.Normalize

open Lowering

variable {loc : Loc} {s : TempSupply} {α : Type} {e : Expr}

def OnlyExhausts {α : Type} (x : Norm α) : Prop := ∀ s, Gives x s fun _ _ => True

def ValuePredicted (e : Expr) (value : Norm Hoisted) : Prop :=
  ∀ s, Gives value s fun h _ => e.hoists = false → Quiet e h

/-- The lowering keeps to the prediction for its node. -/
structure Predicted (l : Lowering) : Prop where
  value : ValuePredicted l.source l.value
  target : ∀ how, OnlyExhausts (l.target how)
  stmt : ∀ assignee, OnlyExhausts (l.stmt assignee)
  body : ∀ assignee, OnlyExhausts (l.body assignee)

theorem OnlyExhausts.bind {β : Type} {x : Norm α} {f : α → Norm β} (hx : OnlyExhausts x)
    (hf : ∀ a, OnlyExhausts (f a)) : OnlyExhausts (x >>= f) :=
  fun s => (hx s).bind fun a s' _ => hf a s'

theorem onlyExhausts_pure (a : α) : OnlyExhausts (pure a : Norm α) :=
  fun _ => gives_pure trivial

theorem onlyExhausts_freshTemp (type : Ty) : OnlyExhausts (freshTemp type) :=
  fun _ => gives_freshTemp fun _ => trivial

theorem ValuePredicted.onlyExhausts {value : Norm Hoisted} (h : ValuePredicted e value) :
    OnlyExhausts value :=
  fun s => (h s).mono fun _ _ _ => trivial

def Discipline.any : Discipline where
  supply _ := True
  word _ := True
  source _ := True
  types := .any _
  assignable _ := True
  value _ := True
  place _ := True
  stmt _ := True
  supply_next _ _ := ⟨trivial, trivial⟩
  source_part _ _ := trivial
  source_word _ _ := trivial
  source_default _ _ _ := trivial
  assignable_binary _ _ := trivial
  assignable_unary _ _ := trivial
  assignable_local := trivial
  assignable_wrapped _ _ := trivial
  value_of_place _ := trivial
  stmt_of_value _ := trivial
  place_of_value _ _ _ := trivial
  place_node _ _ _ := trivial
  value_node _ _ _ _ _ _ := trivial
  stmt_node _ _ _ _ _ := trivial
  stmt_assign _ _ _ _ := trivial

/-- What makes something fails for want of temporaries only. -/
theorem Makes.onlyExhausts {x : Norm α} {Q : α → Prop} (h : Makes Discipline.any x Q) : OnlyExhausts x :=
  fun s => (h s trivial).mono fun _ _ _ => trivial

theorem OnlyExhausts.makes {x : Norm α} {Q : α → Prop} (h : OnlyExhausts x) (hQ : ∀ a, Q a) :
    Makes Discipline.any x Q := fun s _ => (h s).mono fun a _ _ => ⟨trivial, hQ a⟩

namespace Predicted

variable {loc : Loc} {type : Ty} {e : Expr} {l lhs rhs : Lowering} {op : BinaryOp}

/-- A disciplined lowering keeps to the prediction. -/
theorem of (h : Disciplined Discipline.any l) : Predicted l where
  value s := (h.value s trivial).mono fun _ _ hv => hv.2.quiet
  target how := (h.target trivial how).onlyExhausts
  stmt assignee := (h.stmt assignee fun _ _ => trivial).onlyExhausts
  body assignee := (h.body assignee fun _ _ => trivial).onlyExhausts

theorem any (h : Predicted l) : Disciplined Discipline.any l where
  value s _ := (h.value s).mono fun _ _ hq => ⟨trivial, ⟨fun _ _ => trivial, trivial⟩, trivial, hq⟩
  target _ how := (h.target how).makes fun _ => ⟨fun _ _ => trivial, trivial, trivial⟩
  stmt assignee _ := (h.stmt assignee).makes fun _ _ _ => trivial
  body assignee _ := (h.body assignee).makes fun _ _ _ => trivial

theorem ofValue {value : Norm Hoisted} (h : ValuePredicted e value) :
    Predicted (.ofValue e value) := by
  have hv : Makes Discipline.any value (Discipline.any.regimen.Value e) := fun s _ =>
    (h s).mono fun _ _ hq => ⟨trivial, ⟨fun _ _ => trivial, trivial⟩, trivial, hq⟩
  have hstmt (assignee : Option Expr) : OnlyExhausts (storeOrDrop e.loc value assignee) :=
    (Disciplined.storeOrDrop (hv.mono fun _ hx => ⟨hx, trivial⟩) fun _ _ => trivial).onlyExhausts
  exact ⟨h, fun _ => h.onlyExhausts, hstmt, hstmt⟩

theorem leaf (h : e.leavesStable = true → e.isStable = true) : Predicted (.leaf e) :=
  .ofValue fun _ => gives_pure fun _ => ⟨rfl, id, h⟩

/-- An optional part, in a scope of its own. -/
theorem scope {part : Option Lowering} (h : ∀ l ∈ part, Predicted l) (assignee : Option Expr) :
    OnlyExhausts (scope part assignee) :=
  (Disciplined.scope (fun l hl => (h l hl).any) fun _ _ => trivial).onlyExhausts

theorem binary (hl : Predicted lhs) (hr : Predicted rhs) :
    Predicted (.binary loc type op lhs rhs) :=
  .of (.binary (fun _ => trivial) ((TypeRule.any _).binary trivial) hl.any hr.any)

end Predicted

/-! ## The prediction holds of every tree -/

/-- The lowering of every tree keeps to the prediction. -/
theorem predicted_lower (e : Expr) : Predicted (lower e) := .of (disciplined_lower trivial)

/-- A value predicted to need no statements has none. -/
theorem stmts_eq_nil {s' : TempSupply} {h : Hoisted} (hn : e.hoists = false)
    (hrun : (lower e).value s = .ok h s') : h.stmts = [] := by
  have hvalue := (predicted_lower e).value s
  rw [source_lower] at hvalue
  exact (hvalue.of_ok hrun hn).stmts

/-- A result without statements may keep them. -/
theorem bind_keeping_stmts {x : Norm Hoisted} {f g : Hoisted → Norm α}
    (h : ∀ r s', x s = .ok r s' → f r = g r) : (x >>= f) s = (x >>= g) s := by
  cases hr : x s with
  | ok r s' => rw [run_bind_ok hr, run_bind_ok hr, h r s' hr]
  | error => rw [run_bind_error hr, run_bind_error hr]

/-- A loop whose condition needs no statements loses none. -/
theorem loop_stmt_eq {test : LoopTest} {cond : Expr} {body assignee : Option Expr}
    (hn : cond.hoists = false) :
    (lower (.loop loc test cond body)).stmt assignee s = (do
      let c ← (lower cond).value
      let stmts ← scope (lowerOption body) none
      return c.stmts ++ [.loop loc test c.value (some stmts)] : Norm (List Expr)) s := by
  have hplain : (lower (.loop loc test cond body)).stmt assignee =
      plainLoop loc test (lower cond) (lowerOption body) := by
    change (if _ then _ else _) = _
    rw [source_lower, hn]
    rfl
  rw [hplain]
  refine bind_keeping_stmts fun c s' hc => ?_
  rw [stmts_eq_nil hn hc]
  rfl

/-- Statements of the right side stand in one branch that tests the left
side. -/
theorem gives_shortCircuit {type : Ty} {op : BinaryOp} {lhs rhs : Expr} :
    Gives (shortCircuit loc type op (lower lhs) (lower rhs)) s fun r _ =>
      ∃ x s₁, (lower lhs).value s = .ok x s₁ ∧ (r.stmts = x.stmts ∨ ∃ t branch, r.stmts = x.stmts ++
          [.varDecl loc t (some x.value), .ite loc .void
            (if op = .or then .mkUnary loc .not false (.local loc t) else .local loc t)
            (some branch) none]) := by
  have hl : Gives (lower lhs).value s fun x s₁ => (lower lhs).value s = .ok x s₁ := by
    have h := (predicted_lower lhs).value s
    unfold Gives at h ⊢
    split at h
    · assumption
    · exact h
  have hr := predicted_lower rhs
  refine hl.bind fun x s₁ hx => ?_
  split
  · refine (onlyExhausts_freshTemp _ s₁).bind fun t s₂ _ => ?_
    refine (Predicted.scope (fun _ h => Option.some.inj h ▸ hr) _ s₂).bind fun branch _ _ => ?_
    exact gives_pure ⟨x, s₁, hx, .inr ⟨t, branch, rfl⟩⟩
  · rename_i hn
    refine (hr.value s₁).bind fun y _ hy => gives_pure ⟨x, s₁, hx, .inl ?_⟩
    rw [(hy (Bool.eq_false_iff.2 hn)).stmts, List.append_nil]

/-- **The prediction holds of every tree.** A value that is predicted to
need no statements has none. So normalization never meets a case value
with statements it did not expect, a loop does not lose statements of its
condition, and a short circuit runs the statements of its right side in
the branch that tests the left side only. -/
theorem hoists_predicts (e : Expr) :
    (∀ s h s', normalizeValue e s = .ok h s' → e.hoists = false → h.stmts = []) ∧
    (∀ s s', normalizeValue e s ≠ .error .unexpectedStatements s' ∧
      normalizeFunction e s ≠ .error .unexpectedStatements s' ∧
      ∀ assignee, normalize e assignee s ≠ .error .unexpectedStatements s') ∧
    (∀ loc test body assignee s, e.hoists = false →
      (lower (.loop loc test e body)).stmt assignee s = (do
        let c ← (lower e).value
        let stmts ← scope (lowerOption body) none
        return c.stmts ++ [.loop loc test c.value (some stmts)] : Norm (List Expr)) s) ∧
    ∀ loc type op lhs s r s', op = .and ∨ op = .or →
      normalizeValue (.binary loc type op lhs e) s = .ok r s' →
      ∃ x s₁, normalizeValue lhs s = .ok x s₁ ∧
        (r.stmts = x.stmts ∨ ∃ t branch, r.stmts = x.stmts ++
          [.varDecl loc t (some x.value), .ite loc .void
            (if op = .or then .mkUnary loc .not false (.local loc t) else .local loc t)
            (some branch) none]) := by
  have hp := predicted_lower e
  have hvalue : OnlyExhausts (normalizeValue e) := hp.value.onlyExhausts
  have hfunction : OnlyExhausts (normalizeFunction e) :=
    hvalue.bind fun _ => onlyExhausts_pure _
  have hbody (assignee : Option Expr) : OnlyExhausts (normalize e assignee) :=
    (hp.body assignee).bind fun _ => onlyExhausts_pure _
  refine ⟨fun s h s' hrun hn => stmts_eq_nil hn hrun, fun s s' => ⟨?_, ?_, fun assignee => ?_⟩,
    fun loc test body assignee s hn => loop_stmt_eq hn, ?_⟩
  · exact fun h => nomatch (hvalue s).fault_eq h
  · exact fun h => nomatch (hfunction s).fault_eq h
  · exact fun h => nomatch (hbody assignee s).fault_eq h
  · rintro loc type op lhs s r s' (rfl | rfl) hrun
    · exact gives_shortCircuit.of_ok hrun
    · exact gives_shortCircuit.of_ok hrun

/-- In `f(max)` the method `max` becomes a function with a parameter of its
own, and still nothing is hoisted. -/
theorem hoists_predicts_forwarded :
    let method : MemberRef := ⟨.static, "max", ⟨[], "Math"⟩, true, some "math.max"⟩
    let e : Expr := .call {} .int (.ident {} .dynamic "f")
      [.field {} (.function [.int] .int []) method none]
    e.hoists = false ∧ ∃ h s', normalizeValue e TempSupply.all = .ok h s' ∧ s'.count = 1 ∧
      h.stmts = [] := by
  intro method e
  refine ⟨rfl, _, _, rfl, rfl, ?_⟩
  exact (hoists_predicts e).1 TempSupply.all _ _ rfl rfl

end LuaBackend.Normalize
