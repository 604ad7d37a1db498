import LuaBackend.Proofs.Control.Writing
import Mathlib.Algebra.Ring.Nat

/-!
# Writing statements

`Emits` says of the emission of a node that it is written, wherever the
node may stand, as code that does what the node does. Each kind of
statement has a lemma that makes it from the parts. `EmitsValue` says that
the code of a value has that value.
-/

namespace LuaBackend.Control

open Emit Run List Code Emission

variable {H : Host}

section Labels

variable (takes : Expr → Nat)

mutual

/-- A bound on the labels that a tree takes, from one for the parts without
control flow. -/
def labels : Expr → Nat
  | .paren _ _ inner => labels inner
  | .annot _ _ _ inner => labels inner
  | .block _ _ exprs => labelsAll exprs
  | .ite _ _ cond onTrue onFalse => takes cond + (labelsPart onTrue + labelsPart onFalse)
  | .loop _ _ cond body => 1 + (takes cond + labelsPart body)
  | .forIn _ _ iterator body => 1 + (takes iterator + labelsPart body)
  | .switch _ _ subject cases default => labelsCases (takes subject) cases + labelsPart default
  | .ret _ v => v.elim 0 takes
  | .brk _ | .cont _ => 0
  | .throw _ v => takes v
  | .tryCatch _ _ body handlers => labelsPart body + labelsHandlers handlers
  | e => takes e

def labelsAll : List Expr → Nat
  | [] => 0
  | e :: rest => labels e + labelsAll rest

def labelsPart : Option Expr → Nat
  | none => 0
  | some e => labels e

def labelsCases (subject : Nat) : List (Case Expr) → Nat
  | [] => 0
  | ⟨values, body⟩ :: rest =>
    (values.map (subject + takes ·)).sum + (labelsPart body + labelsCases subject rest)

def labelsHandlers : List (Handler Expr) → Nat
  | [] => 0
  | [⟨_, body⟩] => labelsPart body
  | _ :: h :: rest => labelsHandlers (h :: rest)

end

theorem labels_simple {e : Expr} (h : e.isSimple = true) : labels takes e = takes e := by
  cases e <;> first | rfl | exact nomatch h

end Labels

/-- What follows the first arm of a branch does what the flow does. -/
structure ElseDoes (L : CodeOracle H) (control : List Frame) (flow : Nat → Flow H Unit)
    (tail : ElseTail) : Prop where
  runs : ∀ n env, choose L n tail.arms (otherwise L n tail.otherwise env) env =
    mapExit (encode control) (flow n)
  valid : ∀ r, Reaches control r → Code.ValidArms r tail.arms ∧ Code.ValidOption r tail.otherwise

section Emits

variable (M : TreeOracle H) (L : CodeOracle H) (scope : Emit.Scope) (takes : Expr → Nat)

def EmitsValue (e : Emission) : Prop :=
  ∀ control, Writes (inside scope control) (takes e.source) e.value fun code =>
    ∀ env, Code.eval L env code = given (M.value e.source)

/-- The node is written, wherever it stands, as code that does what it
does. -/
structure Emits (e : Emission) : Prop where
  stmt : ∀ control, Open control e.source → ∀ last,
    Writes (inside scope control) (labels takes e.source) (e.stmt last)
      (Does L control last fun n => exec M n e.source)
  body : ∀ control, Open control e.source → ∀ followed,
    Writes (inside scope control) (labels takes e.source) (e.body followed)
      (Does L control (!followed) fun n => exec M n e.source)
  orElse : ∀ control, Open control e.source →
    Writes (inside scope control) (labels takes e.source) e.orElse
      (ElseDoes L control fun n => exec M n e.source)

end Emits

variable {M : TreeOracle H} {L : CodeOracle H} {scope : Emit.Scope} {takes : Expr → Nat}
  {control : List Frame} {last : Bool} {flow flow' : Nat → Flow H Unit}

namespace Code

/-- Code that computes a value and goes on from it. -/
theorem given_bind {α : Type} {f : H.State → Except H.Value H.Value × H.State}
    {g : LuaValue H.Value → CodeFlow H α} {g' : H.Value → Flow H α}
    (hg : ∀ v, g (.prog v) = mapExit (encode control) (g' v)) :
    given f >>= g = mapExit (encode control) (attempt .throw f >>= g') := by
  have hgiven : given f >>= g = attempt thrown f >>= fun v => g (.prog v) := by
    rw [given, bind_assoc]
    rfl
  have hattempt : mapExit (encode control) (attempt .throw f) = attempt thrown f :=
    mapExit_attempt _ _ _
  rw [hgiven, mapExit_bind, hattempt, funext hg]

end Code

theorem eval_bind {α : Type} {c : Lua.Expr} {e : Expr} {env : Locals H.Value}
    (h : Code.eval L env c = given (M.value e)) {g : LuaValue H.Value → CodeFlow H α}
    {g' : H.Value → Flow H α} (hg : ∀ v, g (.prog v) = mapExit (encode control) (g' v)) :
    Code.eval L env c >>= g = mapExit (encode control) (value M e >>= g') := by
  rw [h]
  exact given_bind hg

theorem exec_bare (n : Nat) (e : Expr) : exec M n e.bare = exec M n e := by
  fun_induction Expr.bare e with
  | case1 loc type inner ih => exact ih
  | case2 loc type name inner ih => exact ih
  | case3 => rfl

theorem execPart_of_empty {part : Option Expr} (h : Expr.isEmptyBranch part = true) (n : Nat) :
    execPart M n part = pure () := by
  cases part with
  | none => rfl
  | some =>
    rw [execPart, ← exec_bare]
    simp only [Expr.isEmptyBranch] at h
    split at h
    · rename_i heq
      rw [heq]
      rfl
    · cases h

/-- The parts of a node that is no loop can jump where the node can. -/
theorem Open.part {e : Expr} {part : Option Emission} (h : Open control e)
    (hsub : (part.map source).toList ⊆ e.children) (hfun : e.isFunction = false)
    (hloop : e.isLoop = false) : ∀ p ∈ part, Open control p.source := fun _ hp =>
  h.child (hsub (Option.mem_toList.2 (Option.mem_map_of_mem source hp))) hfun hloop

theorem writes_bodyOf {part : Option Emission} (h : ∀ p ∈ part, Emits M L scope takes p)
    (ho : ∀ p ∈ part, Open control p.source) (followed : Bool) :
    Writes (inside scope control) (labelsPart takes (part.map source)) (bodyOf part followed)
      (Does L control (!followed) fun n => execPart M n (part.map source)) := by
  cases part with
  | none => exact writes_pure Does.nil
  | some p => exact (h p rfl).body control (ho p rfl) followed

theorem ElseDoes.congr {tail : ElseTail} (h : ElseDoes L control flow tail)
    (heq : ∀ n, flow n = flow' n) : ElseDoes L control flow' tail where
  runs n env := by rw [h.runs, heq]
  valid := h.valid

/-- A branch as good as missing does nothing. -/
theorem elseDoes_of_empty {part : Option Expr} (h : Expr.isEmptyBranch part = true) :
    ElseDoes L control (fun n => execPart M n part) {} where
  runs n _ := by rw [execPart_of_empty h]; rfl
  valid _ _ := ⟨trivial, trivial⟩

theorem Does.orElse {code : Lua.Block} (h : Does L control last flow code) :
    ElseDoes L control flow { otherwise := some code } where
  runs n env := h.block n env
  valid _ hr := ⟨trivial, h.validBlock hr⟩

/-- What follows `else`: further arms, a block, or nothing. -/
theorem writes_elseTail {part : Option Emission} (h : ∀ p ∈ part, Emits M L scope takes p)
    (ho : ∀ p ∈ part, Open control p.source) :
    Writes (inside scope control) (labelsPart takes (part.map source)) (elseTail part)
      (ElseDoes L control fun n => execPart M n (part.map source)) := by
  cases part with
  | none => exact writes_pure (elseDoes_of_empty rfl)
  | some p =>
    rw [elseTail]
    split
    · rename_i hempty
      exact writes_pure (elseDoes_of_empty hempty)
    · exact (h p rfl).orElse control (ho p rfl)

theorem Does.scoped {code : Lua.Block} (h : Does L control true flow code) :
    Does L control last flow [.scope code] := by
  refine .singleton (fun n env => ?_) (fun r hr => h.validBlock hr) (fun _ _ => nofun) fun _ => nofun
  exact (void_bind _ _).trans ((void_unit _).trans (h.block n env))

namespace Emits

variable {inner : Emission} {es : List Emission}

/-- A node that is written alike wherever it stands. -/
theorem ofStmt {e : Emission} (hbody : ∀ followed, e.body followed = e.stmt (!followed))
    (helse : e.orElse = do return { otherwise := some (← indented (e.stmt true)) })
    (h : ∀ control, Open control e.source → ∀ last,
      Writes (inside scope control) (labels takes e.source) (e.stmt last)
        (Does L control last fun n => exec M n e.source)) : Emits M L scope takes e where
  stmt := h
  body control ho followed := by
    rw [hbody]
    exact h control ho _
  orElse control ho := by
    rw [helse]
    exact (h control ho true).indented.map fun _ hcode => hcode.orElse

theorem paren {loc : Loc} {type : Ty} (h : Emits M L scope takes inner) :
    Emits M L scope takes (.paren loc type inner) := by
  have ho (control : List Frame) (h : Open control (.paren loc type inner.source)) :
      Open control inner.source := h.child (.head _) rfl rfl
  exact ⟨fun c hc => h.stmt c (ho c hc), fun c hc => h.body c (ho c hc),
    fun c hc => h.orElse c (ho c hc)⟩

theorem annot {loc : Loc} {type : Ty} {name : String} (h : Emits M L scope takes inner) :
    Emits M L scope takes (.annot loc type name inner) := by
  have ho (control : List Frame) (h : Open control (.annot loc type name inner.source)) :
      Open control inner.source := h.child (.head _) rfl rfl
  exact ⟨fun c hc => h.stmt c (ho c hc), fun c hc => h.body c (ho c hc),
    fun c hc => h.orElse c (ho c hc)⟩

/-- Nodes in order; only the last one is last. -/
theorem sequence (h : ∀ e ∈ es, Emits M L scope takes e) (ho : ∀ e ∈ es, Open control e.source)
    (followed : Bool) :
    Writes (inside scope control) (labelsAll takes (es.map source)) (sequence followed es)
      (Does L control (!followed) fun n => execAll M n (es.map source)) := by
  induction es with
  | nil => exact writes_pure Does.nil
  | cons e rest ih =>
    have he := h e mem_cons_self
    have hoe := ho e mem_cons_self
    cases rest with
    | nil =>
      refine (he.stmt control hoe (!followed)).mono (Nat.le_add_right _ _) fun code hcode => ?_
      exact hcode.congr fun n => (void_unit (exec M n e.source)).symm
    | cons =>
      have hrest := ih (fun e he => h e (.tail _ he)) fun e he => ho e (.tail _ he)
      exact (he.stmt control hoe false).bind fun code hcode =>
        hrest.map fun code' hcode' => hcode.append hcode'

/-- A branch alone in a block after `else` adds its arms to those before. -/
theorem block {loc : Loc} {type : Ty} (h : ∀ e ∈ es, Emits M L scope takes e) :
    Emits M L scope takes (.block loc type es) := by
  have hopen (control : List Frame) (ho : Open control (Emission.block loc type es).source) :
      ∀ e ∈ es, Open control e.source := fun e he => ho.child (mem_map_of_mem he) rfl rfl
  refine ⟨fun control ho last => ?_, fun control ho followed => ?_, fun control ho => ?_⟩
  · dsimp only [Emission.block]
    split
    · rename_i hempty
      cases isEmpty_iff.1 hempty
      exact writes_pure Does.nil
    · exact (sequence h (hopen control ho) false).indented.map fun code hcode => hcode.scoped
  · exact sequence h (hopen control ho) followed
  · have hbody := (sequence h (hopen control ho) false).indented.map
      fun code hcode => hcode.orElse
    dsimp only [Emission.block]
    split
    · rename_i only
      split
      · refine ((h only (.head _)).orElse control (hopen control ho only (.head _))).mono
          (Nat.le_add_right _ _) fun tail htail => ?_
        exact htail.congr fun n => (void_unit (exec M n only.source)).symm
      · exact hbody
    · exact hbody

end Emits

/-- A return is a statement of its own unless it is the last one. -/
theorem does_returnStmt {v : Option Lua.Expr} (h : ∀ env n,
    (do exit (.ret (← evalOption L env v)) : CodeFlow H Unit) = mapExit (encode control) (flow n)) :
    Does L control last flow [returnStmt last v] := by
  cases last with
  | false =>
    refine .singleton (fun n env => ?_) (fun _ _ => trivial) (fun _ _ => nofun) fun _ => nofun
    exact (void_bind _ _).trans (h env n)
  | true =>
    refine .singleton (fun n env => ?_) (fun _ _ => trivial) nofun fun _ => nofun
    exact (void_bind _ _).trans (h env n)

namespace Emits

/-- A return inside a protected body hands its value out. -/
theorem ret {v : Option Emission} {loc : Loc} (h : ∀ e ∈ v, EmitsValue M L scope takes e) :
    Emits M L scope takes (.ret loc v) := by
  cases v with
  | none => exact ofStmt (fun _ => rfl) rfl fun control _ last =>
      writes_pure (does_returnStmt fun _ _ => rfl)
  | some e =>
    refine ofStmt (fun _ => rfl) rfl fun control _ last => ?_
    refine ((h e rfl) control).map fun code hcode => does_returnStmt fun env n => ?_
    exact eval_bind (hcode env) fun v => rfl

theorem throw {v : Emission} {loc : Loc} (h : EmitsValue M L scope takes v) :
    Emits M L scope takes (.throw loc v) := by
  refine ofStmt (fun _ => rfl) rfl fun control _ last => (h control).map fun code hcode => ?_
  refine .singleton (fun n env => ?_) (fun _ _ => trivial) (fun _ _ => nofun) fun _ => nofun
  exact (void_bind _ _).trans (eval_bind (hcode env) fun v => rfl)

end Emits

/-- The statement is the jump. -/
structure Leaps (L : CodeOracle H) (control : List Frame) (j : Jump H.Value) (s : Lua.Stmt) :
    Prop where
  runs : ∀ n env, void (step L n s env) = exit (encode control j)
  valid : ∀ r, Reaches control r → Code.Valid r s
  unlabelled : ∀ label, s ≠ .label label

/-- A return of a mark asks for a jump outside of a protected body. -/
theorem leaps_mark {m : Mark} {j : Jump H.Value}
    (h : encode (.protect :: control) j = .ret (.mark m)) :
    Leaps L (.protect :: control) j (.ret (some (.name m.name))) where
  runs n env := by
    rw [step, evalOption, eval_mark, h]
    rfl
  valid _ _ := trivial
  unlabelled _ := nofun

/-- A break leaves the loop, or the protected body by a mark. -/
theorem writes_breakStmt (ho : control ≠ []) (loc : Loc) :
    Writes (inside scope control) 0 (breakStmt loc) (Leaps L control .brk) := by
  cases control with
  | nil => exact absurd rfl ho
  | cons frame =>
    cases frame with
    | loop => exact writes_of_eq (fun _ => rfl) ⟨fun _ _ => rfl, fun _ hr => hr.1, nofun⟩
    | protect => exact writes_of_eq (fun _ => rfl) (leaps_mark (m := .brk) rfl)

/-- A continue goes to the label of its loop, or leaves by a mark. -/
theorem writes_continueStmt (ho : control ≠ []) (hlabel : control.head? ≠ some (.loop 0))
    (loc : Loc) : Writes (inside scope control) 0 (continueStmt loc) (Leaps L control .cont) := by
  cases control with
  | nil => exact absurd rfl ho
  | cons frame rest =>
    cases frame with
    | loop label =>
      have hne : label ≠ 0 := by
        rintro rfl
        exact hlabel rfl
      have hgoto : Leaps L (.loop label :: rest) .cont (.goto label) :=
        ⟨fun _ _ => rfl, fun _ hr => hr.2 hne, fun _ => nofun⟩
      refine writes_of_eq (fun n => ?_) hgoto
      change (if label = 0 then refuse .unlabelledContinue else pure (.goto label) :
        EmitM Lua.Stmt) _ n = _
      rw [if_neg hne]
      rfl
    | protect => exact writes_of_eq (fun _ => rfl) (leaps_mark (m := .cont) rfl)

namespace Leaps

variable {j : Jump H.Value} {s : Lua.Stmt}

theorem does (h : Leaps L control j s) : Does L control true (fun _ => exit j) [s] :=
  .singleton h.runs h.valid nofun h.unlabelled

theorem writes (h : Leaps L control j s) : Writes (inside scope control) 0 (match s with
      | .ret v => return [returnStmt last v]
      | s => return [s])
    (Does L control last fun _ => exit j) := by
  cases s with
  | ret =>
    exact writes_pure (does_returnStmt fun env n => (void_bind _ _).symm.trans (h.runs n env))
  | _ => exact writes_pure (.singleton h.runs h.valid (fun _ _ => nofun) h.unlabelled)

end Leaps

namespace Emits

/-- A jump that is not last stands in a block of its own. -/
theorem jump {source : Expr} {j : Jump H.Value} {stmt : EmitM Lua.Stmt}
    (hsource : ∀ n, exec M n source = exit j)
    (h : ∀ control, Open control source → Writes (inside scope control) 0 stmt (Leaps L control j)) :
    Emits M L scope takes (.jump source stmt) := by
  refine ofStmt (fun _ => rfl) rfl fun control ho last => ?_
  refine ((h control ho).bind fun s hs => hs.writes).mono (Nat.zero_le _) fun code hcode => ?_
  exact hcode.congr fun n => (hsource n).symm

theorem brk (loc : Loc) : Emits M L scope takes (.jump (.brk loc) (breakStmt loc)) :=
  jump (fun _ => rfl) fun _ ho => writes_breakStmt (ho.brk rfl) loc

theorem cont (loc : Loc) : Emits M L scope takes (.jump (.cont loc) (continueStmt loc)) :=
  jump (fun _ => rfl) fun _ ho => writes_continueStmt (ho.cont rfl).1 (ho.cont rfl).2 loc

end Emits

/-! ## Branches -/

def Tests (L : CodeOracle H) (control : List Frame) (env : Locals H.Value) (c : Lua.Expr)
    (b : Flow H Bool) : Prop :=
  (do return truth (← Code.eval L env c)) = mapExit (encode control) b

section Tests

variable {env : Locals H.Value} {c : Lua.Expr} {b : Flow H Bool}

theorem tests_value {e : Expr} (h : Code.eval L env c = given (M.value e)) :
    Tests L control env c (do return H.truth (← value M e)) := eval_bind h fun _ => rfl

/-- A condition and what depends on it. -/
theorem Tests.bind {α : Type} (h : Tests L control env c b) {g : Bool → CodeFlow H α}
    {g' : Bool → Flow H α} (hg : ∀ t, g t = mapExit (encode control) (g' t)) :
    (do g (truth (← Code.eval L env c))) = mapExit (encode control) (b >>= g') := by
  have hassoc : (do g (truth (← Code.eval L env c))) =
      (do return truth (← Code.eval L env c)) >>= g := by rw [bind_assoc]; rfl
  rw [hassoc, h, mapExit_bind, funext hg]

theorem Tests.not_paren (h : Tests L control env c b) :
    Tests L control env (.not (.paren c)) (do return !(← b)) := by
  have hneg : (do return !(truth (← Code.eval L env c))) = mapExit (encode control) (do return !(← b)) :=
    h.bind (g := fun t => (pure !t : CodeFlow H Bool)) fun _ => rfl
  refine Eq.trans ?_ hneg
  rw [Code.eval, Code.eval, bind_assoc]
  refine congrArg (Code.eval L env c >>= ·) (funext fun v => ?_)
  exact congrArg (pure : Bool → CodeFlow H Bool) (H.truth_bool _)

end Tests

namespace ElseDoes

variable {tail : ElseTail} {c : Lua.Expr} {stmts : Lua.Block} {b : Flow H Bool}

theorem cons (hc : ∀ env, Tests L control env c b) (hs : Does L control true flow stmts)
    (htail : ElseDoes L control flow' tail) :
    ElseDoes L control (fun n => do if ← b then flow n else flow' n)
      ⟨⟨c, stmts⟩ :: tail.arms, tail.otherwise⟩ where
  runs n env := by
    refine (hc env).bind (g := fun t => if t then block L n stmts env
      else choose L n tail.arms (otherwise L n tail.otherwise env) env) fun t => ?_
    rw [mapExit_ite, hs.block, htail.runs]
  valid r hr := ⟨⟨hs.validBlock hr, (htail.valid r hr).1⟩, (htail.valid r hr).2⟩

theorem branches (h : ElseDoes L control flow tail) :
    Does L control last flow [.branches tail.arms tail.otherwise] := by
  refine .singleton (fun n env => ?_) h.valid (fun _ _ => nofun) fun _ => nofun
  exact (void_bind _ _).trans ((void_unit _).trans (h.runs n env))

end ElseDoes

namespace Emits

section Branch

variable {cond : Emission} {onTrue onFalse : Option Emission} {loc : Loc} {type : Ty}

theorem exec_ite (n : Nat) {cond : Expr} {onTrue onFalse : Option Expr} :
    exec M n (.ite loc type cond onTrue onFalse) = (do
      if ← (do return H.truth (← value M cond)) then execPart M n onTrue
      else execPart M n onFalse) := by
  rw [bind_assoc]
  rfl

section

variable (hc : EmitsValue M L scope takes cond) (ht : ∀ e ∈ onTrue, Emits M L scope takes e)
  (hf : ∀ e ∈ onFalse, Emits M L scope takes e)
include hc ht hf

/-- An empty branch is turned around. -/
theorem writes_branch
    (hot : ∀ e ∈ onTrue, Open control e.source) (hof : ∀ e ∈ onFalse, Open control e.source) :
    Writes (inside scope control) (takes cond.source + (labelsPart takes (onTrue.map source)
      + labelsPart takes (onFalse.map source)))
      (branch cond onTrue onFalse)
      (Does L control last fun n => exec M n (.ite loc type cond.source
        (onTrue.map source) (onFalse.map source))) := by
  refine (hc control).bind fun c hcode => ?_
  have htest : ∀ env, Tests L control env c (do return H.truth (← value M cond.source)) :=
    fun env => tests_value (hcode env)
  dsimp only
  split
  · rename_i hempty
    obtain ⟨htrue, hfalse⟩ := Bool.and_eq_true_iff.1 hempty
    refine writes_pure (.singleton (fun n env => ?_) (fun _ _ => trivial) (fun _ _ => nofun)
      fun _ => nofun)
    rw [exec_ite, execPart_of_empty htrue, execPart_of_empty hfalse]
    refine (void_bind _ _).trans ((htest env).bind (g := fun _ => pure ()) fun t => ?_)
    cases t <;> rfl
  · split
    · rename_i htrue
      refine ((writes_bodyOf hf hof false).indented.map fun stmts hs => ?_).mono (Nat.le_add_left _ _)
        fun _ h => h
      have hnone : ElseDoes L control (fun n => execPart M n (onTrue.map source)) {} :=
        elseDoes_of_empty htrue
      refine ((ElseDoes.cons (fun env => (htest env).not_paren) hs hnone).branches).congr fun n => ?_
      rw [exec_ite, bind_assoc]
      refine congrArg _ (funext fun t => ?_)
      cases t <;> rfl
    · refine (writes_bodyOf ht hot false).indented.bind fun stmts hs => ?_
      refine (writes_elseTail hf hof).map fun tail htail => ?_
      exact ((htail.cons htest hs).branches).congr fun n => (exec_ite n).symm

theorem ite : Emits M L scope takes (.ite loc type cond onTrue onFalse) := by
  -- The branches can break and continue where the node can.
  have hopen (control : List Frame)
      (ho : Open control (Emission.ite loc type cond onTrue onFalse).source) :
      (∀ e ∈ onTrue, Open control e.source) ∧ ∀ e ∈ onFalse, Open control e.source :=
    ⟨ho.part (fun _ h => .tail _ (mem_append_left _ h)) rfl rfl,
      ho.part (fun _ h => .tail _ (mem_append_right _ h)) rfl rfl⟩
  have hstmt (control : List Frame)
      (ho : Open control (Emission.ite loc type cond onTrue onFalse).source) (last : Bool) :
      Writes (inside scope control) _ (Emission.branch cond onTrue onFalse)
        (Does L control last fun n => exec M n (Emission.ite loc type cond onTrue onFalse).source) :=
    writes_branch hc ht hf (hopen control ho).1 (hopen control ho).2
  refine ⟨hstmt, fun control ho followed => hstmt control ho _, fun control ho => ?_⟩
  refine (hc control).bind fun c hcode => (writes_bodyOf ht (hopen control ho).1 false).indented.bind
    fun stmts hs => (writes_elseTail hf (hopen control ho).2).map fun tail htail => ?_
  have htest : ∀ env, Tests L control env c (do return H.truth (← value M cond.source)) :=
    fun env => tests_value (hcode env)
  exact (htail.cons htest hs).congr fun n => (exec_ite n).symm

end

end Branch

end Emits

end LuaBackend.Control
