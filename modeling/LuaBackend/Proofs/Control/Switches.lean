import LuaBackend.Proofs.Control.Statements

/-!
# Writing switches

A switch is written as a chain of branches that evaluates the subject anew
for each comparison (`writes_caseArms`). If nothing that is compared
changes the state, the chain does what the switch does (`chain_eq`).
-/

namespace LuaBackend.Control

open Emit Run List Code Emission

variable {H : Host}
variable {e : Expr} {ε α β : Type} {es : List Expr}
variable {x : Run H.State ε α} {f : α → Run H.State ε β} {default : Option Emission}

/-! ## Chains of comparisons -/

def either (a b : Flow H Bool) : Flow H Bool := do if ← a then return true else b

theorem either_false (a : Flow H Bool) : either a (pure false) = a := by
  refine after_self a _ (fun t => ?_) fun _ => rfl
  cases t <;> rfl

theorem either_assoc (a b c : Flow H Bool) : either (either a b) c = either a (either b c) := by
  rw [either, either, bind_assoc, either]
  refine congrArg (a >>= ·) (funext fun t => ?_)
  cases t <;> rfl

section Chain

variable (M : TreeOracle H)

def equals (subject e : Expr) : Flow H Bool := do
  let v ← value M subject
  return H.same v (← value M e)

def compares (subject : Expr) : List Expr → Flow H Bool
  | [] => pure false
  | e :: rest => either (equals M subject e) (compares subject rest)

def chain (n : Nat) (subject : Expr) (default : Flow H Unit) : List (Case Expr) → Flow H Unit
  | [] => default
  | ⟨values, body⟩ :: rest => do
    if ← compares M subject values then execPart M n body else chain n subject default rest

def Still (e : Expr) : Prop := ∀ s, (M.value e s).2 = s

/-- Nothing compared changes the state, and the subject has a value if it is
not compared. -/
structure Comparable (subject : Expr) (cases : List (Case Expr)) : Prop where
  still : Still M subject
  values : ∀ c ∈ cases, ∀ e ∈ c.values, Still M e
  answers : (∀ c ∈ cases, c.values = []) → ∀ s, ∃ v, (M.value subject s).1 = .ok v

end Chain

section Still

variable {M : TreeOracle H} {n : Nat} {subject : Expr} {default : Flow H Unit} {s : H.State}
  {v w : H.Value}

theorem bind_of_still {a : α} (h : x s = some (.ok a, s)) : (x >>= f) s = f a s := by
  rw [bind_eq, Run.after, h]

theorem bind_of_exit {e : ε} (h : x s = some (.error e, s)) : (x >>= f) s = some (.error e, s) := by
  rw [bind_eq, Run.after, h]
  rfl

theorem value_of_ok (h : M.value e s = (.ok v, s)) : value M e s = some (.ok v, s) := by
  rw [value, attempt, h]
  rfl

theorem value_of_error (h : M.value e s = (.error w, s)) :
    value M e s = some (.error (.throw w), s) := by
  rw [value, attempt, h]
  rfl

/-- A tree that changes nothing has a value or throws. -/
theorem Still.cases (h : Still M e) (s : H.State) :
    (∃ v, M.value e s = (.ok v, s)) ∨ ∃ w, M.value e s = (.error w, s) := by
  have hs := h s
  generalize M.value e s = p at hs
  obtain ⟨w | v, s'⟩ := p
  · exact .inr ⟨w, congrArg (Prod.mk _) hs⟩
  · exact .inl ⟨v, congrArg (Prod.mk _) hs⟩

/-- Comparing changes nothing either. -/
theorem selects_still (h : ∀ e ∈ es, Still M e) (v : H.Value) (s : H.State) :
    (∃ t, selects M v es s = some (.ok t, s)) ∨ ∃ j, selects M v es s = some (.error j, s) := by
  induction es with
  | nil => exact .inl ⟨false, rfl⟩
  | cons e rest ih =>
    rcases (h e mem_cons_self).cases s with ⟨w, hw⟩ | ⟨w, hw⟩
    · rw [selects, bind_of_still (value_of_ok hw)]
      split
      · exact .inl ⟨true, rfl⟩
      · exact ih fun e he => h e (.tail _ he)
    · exact .inr ⟨.throw w, bind_of_exit (value_of_error hw)⟩

/-- The subject may be evaluated for each comparison. -/
theorem compares_of_ok (hv : M.value subject s = (.ok v, s)) (h : ∀ e ∈ es, Still M e) :
    compares M subject es s = selects M v es s := by
  induction es with
  | nil => rfl
  | cons e rest ih =>
    rw [compares, either, equals, bind_assoc, bind_of_still (value_of_ok hv), bind_assoc, selects]
    rcases (h e mem_cons_self).cases s with ⟨w, hw⟩ | ⟨w, hw⟩
    · rw [bind_of_still (value_of_ok hw), bind_of_still (value_of_ok hw)]
      change (if H.same v w then _ else _ : Flow H Bool) s = _
      split
      · rfl
      · exact ih fun e he => h e (.tail _ he)
    · rw [bind_of_exit (value_of_error hw), bind_of_exit (value_of_error hw)]

/-- A subject with a value selects the same case. -/
theorem chain_of_ok (hv : M.value subject s = (.ok v, s)) {cases : List (Case Expr)}
    (h : ∀ c ∈ cases, ∀ e ∈ c.values, Still M e) :
    chain M n subject default cases s = execCases M n v default cases s := by
  induction cases with
  | nil => rfl
  | cons c rest ih =>
    have hc : ∀ e ∈ c.values, Still M e := h c mem_cons_self
    have hcompares := compares_of_ok hv hc
    rcases selects_still hc v s with ⟨t, ht⟩ | ⟨j, hj⟩
    · rw [chain, bind_of_still (hcompares.trans ht), execCases, bind_of_still ht]
      cases t with
      | true => rfl
      | false => exact ih fun c hc => h c (.tail _ hc)
    · rw [chain, bind_of_exit (hcompares.trans hj), execCases, bind_of_exit hj]

/-- A subject that throws does so at the first comparison. -/
theorem chain_of_error (hw : M.value subject s = (.error w, s)) {cases : List (Case Expr)}
    (h : ∃ c ∈ cases, c.values ≠ []) :
    chain M n subject default cases s = some (.error (.throw w), s) := by
  induction cases with
  | nil =>
    obtain ⟨c, hc, -⟩ := h
    exact nomatch hc
  | cons c rest ih =>
    obtain ⟨values, body⟩ := c
    cases values with
    | nil =>
      obtain ⟨c, hc, hne⟩ := h
      rcases mem_cons.1 hc with rfl | hc
      · exact absurd rfl hne
      · exact ih ⟨c, hc, hne⟩
    | cons e =>
      have hequals : equals M subject e s = some (.error (.throw w), s) :=
        bind_of_exit (value_of_error hw)
      exact bind_of_exit (bind_of_exit hequals)

/-- **A switch may evaluate its subject for each comparison** if this
changes nothing. -/
theorem chain_eq {cases : List (Case Expr)} (h : Comparable M subject cases) (n : Nat)
    (default : Flow H Unit) :
    chain M n subject default cases = value M subject >>= (execCases M n · default cases) := by
  funext s
  rcases h.still.cases s with ⟨v, hv⟩ | ⟨w, hw⟩
  · rw [bind_of_still (value_of_ok hv)]
    exact chain_of_ok hv h.values
  · rw [bind_of_exit (value_of_error hw)]
    refine chain_of_error hw ?_
    by_contra hnone
    obtain ⟨v, hv⟩ := h.answers (fun c hc => by_contra fun hne => hnone ⟨c, hc, hne⟩) s
    rw [hw] at hv
    exact nomatch hv

end Still

variable {M : TreeOracle H} {L : CodeOracle H} {scope : Emit.Scope} {takes : Expr → Nat}
  {control : List Frame} {subject : Emission}

theorem Tests.either {env : Locals H.Value} {c c' : Lua.Expr} {a b : Flow H Bool}
    (h : Tests L control env c a) (h' : Tests L control env c' b) :
    Tests L control env (.binary .or c c') (either a b) := by
  refine Eq.trans ?_ (h.bind (g := fun t => if t then pure true
    else (do return truth (← Code.eval L env c'))) fun t => ?_)
  rotate_left
  · rw [mapExit_ite, ← h']
    rfl
  rw [Code.eval, bind_assoc]
  refine congrArg (Code.eval L env c >>= ·) (funext fun v => ?_)
  cases ht : truth v with
  | true => exact congrArg (pure : Bool → CodeFlow H Bool) ht
  | false => rfl

theorem writes_operand {e : Emission} (h : EmitsValue M L scope takes e) (parent : Nat)
    (tighter : Bool) :
    Writes (inside scope control) (takes e.source) (e.operand parent tighter) fun code =>
      ∀ env, Code.eval L env code = given (M.value e.source) := by
  refine (h control).map fun code hcode env => ?_
  split
  · exact hcode env
  · exact hcode env

theorem writes_caseTest {e : Emission} (hs : EmitsValue M L scope takes subject)
    (he : EmitsValue M L scope takes e) :
    Writes (inside scope control) (takes subject.source + takes e.source)
      (caseTest subject e) fun c =>
        ∀ env, Tests L control env c (equals M subject.source e.source) := by
  refine (writes_operand hs _ _).bind fun code hcode => (writes_operand he _ _).map
    fun code' hcode' env => ?_
  rw [Tests, Code.eval, bind_assoc]
  refine eval_bind (hcode env) fun v => ?_
  rw [bind_assoc]
  exact eval_bind (hcode' env) fun w =>
    congrArg (pure : Bool → CodeFlow H Bool) (H.truth_bool _)

section

variable {es : List Emission} (hs : EmitsValue M L scope takes subject)
  (h : ∀ e ∈ es, EmitsValue M L scope takes e)
include hs h

theorem writes_caseTestsAfter {test : Lua.Expr} {b : Flow H Bool}
    (htest : ∀ env, Tests L control env test b) :
    Writes (inside scope control) ((es.map source).map (takes subject.source + takes ·)).sum
      (caseTestsAfter subject test es) fun c =>
        ∀ env, Tests L control env c (either b (compares M subject.source (es.map source))) := by
  induction es generalizing test b with
  | nil => exact writes_pure fun env => (either_false b).symm ▸ htest env
  | cons e rest ih =>
    refine (writes_caseTest hs (h e mem_cons_self)).bind fun next hnext => ?_
    refine (ih (fun e he => h e (.tail _ he))
      fun env => (htest env).either (hnext env)).mono (Nat.le_refl _) fun c hc env => ?_
    exact either_assoc b _ _ ▸ hc env

/-- The condition of a case compares the subject with its values. -/
theorem writes_caseCond :
    Writes (inside scope control) ((es.map source).map (takes subject.source + takes ·)).sum
      (caseCond subject es) fun c =>
        ∀ env, Tests L control env c (compares M subject.source (es.map source)) := by
  cases es with
  | nil =>
    exact writes_pure fun env => congrArg (pure : Bool → CodeFlow H Bool) (H.truth_bool false)
  | cons e =>
    refine (writes_caseTest hs (h e mem_cons_self)).bind fun first hfirst => ?_
    exact writes_caseTestsAfter hs (fun e he => h e (.tail _ he)) hfirst

end

def sourceCase (c : Case Emission) : Case Expr :=
  ⟨c.values.map source, c.body.map source⟩

/-- The cases, in front of any code for the default. -/
theorem writes_caseArms {cases : List (Case Emission)} (hs : EmitsValue M L scope takes subject)
    (hv : ∀ c ∈ cases, ∀ e ∈ c.values, EmitsValue M L scope takes e)
    (hb : ∀ c ∈ cases, ∀ e ∈ c.body, Emits M L scope takes e ∧ Open control e.source) :
    Writes (inside scope control) (labelsCases takes (takes subject.source) (cases.map sourceCase))
      (caseArms subject cases) fun arms => ∀ (default : Nat → Flow H Unit) otherwise,
        ElseDoes L control default ⟨[], otherwise⟩ →
        ElseDoes L control (fun n => chain M n subject.source (default n) (cases.map sourceCase))
          ⟨arms, otherwise⟩ := by
  induction cases with
  | nil => exact writes_pure fun default otherwise h => h
  | cons c rest ih =>
    have hbc := hb c mem_cons_self
    have hrest := ih (fun c hc => hv c (.tail _ hc)) fun c hc => hb c (.tail _ hc)
    refine (writes_caseCond hs (hv c mem_cons_self)).bind fun cond hcond => ?_
    have hbody := writes_bodyOf (fun e he => (hbc e he).1) (fun e he => (hbc e he).2) false
    refine hbody.indented.bind fun stmts hstmts => hrest.map fun arms harms default otherwise h => ?_
    exact (harms default otherwise h).cons hcond hstmts

theorem writes_defaultArm (h : ∀ e ∈ default, Emits M L scope takes e)
    (ho : ∀ e ∈ default, Open control e.source) :
    Writes (inside scope control) (labelsPart takes (default.map source))
      (defaultArm default) fun otherwise =>
        ElseDoes L control (fun n => execPart M n (default.map source)) ⟨[], otherwise⟩ := by
  unfold defaultArm
  split
  · rename_i hempty
    exact writes_pure (elseDoes_of_empty hempty)
  · exact (writes_bodyOf h ho false).indented.map fun code hcode => hcode.orElse

theorem Emits.switch {cases : List (Case Emission)} {loc : Loc} {type : Ty}
    (hs : EmitsValue M L scope takes subject)
    (hq : Comparable M subject.source (cases.map sourceCase))
    (hv : ∀ c ∈ cases, ∀ e ∈ c.values, EmitsValue M L scope takes e)
    (hb : ∀ c ∈ cases, ∀ e ∈ c.body, Emits M L scope takes e)
    (hd : ∀ e ∈ default, Emits M L scope takes e) :
    Emits M L scope takes (.switch loc type subject cases default) := by
  refine ofStmt (fun _ => rfl) rfl fun control ho last => ?_
  have hod : ∀ e ∈ default, Open control e.source :=
    ho.part (fun _ h => .tail _ (mem_append_right _ h)) rfl rfl
  have hob : ∀ c ∈ cases, ∀ e ∈ c.body, Open control e.source := by
    intro c hc e he
    refine ho.child (.tail _ (mem_append_left _ (mem_flatMap.2
      ⟨_, mem_map_of_mem hc, mem_append_right _ ?_⟩))) rfl rfl
    exact Option.mem_toList.2 (Option.mem_map_of_mem source he)
  have harms := writes_caseArms hs hv fun c hc e he => ⟨hb c hc e he, hob c hc e he⟩
  -- Without cases there is no branch, and the default is written in its place.
  cases cases with
  | nil =>
    have hflow (n : Nat) : execPart M n (default.map source) = _ := chain_eq hq n _
    cases default with
    | none => exact writes_pure (Does.nil.congr hflow)
    | some e =>
      change Writes _ _ (if Expr.isEmptyBranch (some e.source) then pure [] else e.stmt false) _
      split
      · rename_i hempty
        exact writes_pure (Does.nil.congr fun n => (execPart_of_empty hempty n).symm.trans (hflow n))
      · refine ((hd e rfl).stmt control (hod e rfl) false).mono (Nat.le_add_left _ _) fun code h => ?_
        exact (h.congr hflow).weaken
  | cons =>
    refine harms.bind fun arms harms => (writes_defaultArm hd hod).map fun otherwise h => ?_
    exact (harms _ otherwise h).branches.congr fun n => chain_eq hq n _

end LuaBackend.Control
