import LuaBackend.Proofs.Control.Loops

/-!
# Writing protected bodies

A try is a protected call followed by a branch on what it reports: the
first arm hands a thrown value to the handler, the others do what the body
has asked for by a mark, or return what it has returned. An arm is there
if the search of the body finds a jump that needs it, so it is there
whenever it is needed.
-/

namespace LuaBackend.Control

open Emit Run List Code

variable {H : Host} {M : TreeOracle H} {L : CodeOracle H} {scope : Emit.Scope} {takes : Expr → Nat}
  {control : List Frame} {last : Bool} {flow : Nat → Flow H Unit}
variable {code : Lua.Block}
variable {handlers : List (Handler Expr)} {h : Handler Expr} {b : Bool}

def report {V : Type} : Except (Jump V) Unit → Bool × LuaValue V
  | .ok _ => (true, .mark .done)
  | .error .brk => (true, .mark .brk)
  | .error .cont => (true, .mark .cont)
  | .error (.ret v) => (true, .prog v)
  | .error (.throw v) => (false, .prog v)

def reported (env : Locals H.Value) (r : Bool × LuaValue H.Value) : Locals H.Value :=
  { env with status := some (flag r.1), result := some r.2 }

/-- A body that returns the mark for its end is a protected body. -/
theorem Does.protect (h : Does L (.protect :: control) false flow code) (n : Nat)
    (env : Locals H.Value) :
    Code.step L n (.protect (code ++ [.ret (some (.name Emit.doneMark))])) env =
      (flow n).after fun r => pure (reported env (report r)) := by
  have hdone (env' : Locals H.Value) : void (Code.seq L n [.ret (some (.name Emit.doneMark))] env') =
      exit (.ret (.mark .done)) := by
    rw [Code.seq_singleton, Code.step, Code.evalOption]
    exact congrArg (fun x => void (x >>= _)) (Code.eval_mark L env' .done)
  have hend : Code.endLabel (code ++ [.ret (some (.name Emit.doneMark))]) = none := by
    rw [Code.endLabel, getLast?_concat]
  have hblock : Code.block L n (code ++ [.ret (some (.name Emit.doneMark))]) env = (do
      mapExit (encode (.protect :: control)) (flow n)
      exit (.ret (.mark .done))) := by
    rw [Code.block, Code.closing_eq_void hend, Code.seq_append, void_bind, funext hdone,
      void_bind_const, h.runs]
  change Code.protectedCall (Code.block L n _ env) >>= (fun r => pure (reported env r)) = _
  rw [hblock, bind_eq, Code.protectedCall, after_after, after_bind, mapExit, after_after]
  refine congrArg _ (funext fun r => ?_)
  rcases r with j | _
  · cases j <;> rfl
  · rfl

theorem Does.validProtect (h : Does L (.protect :: control) false flow code) (r : Code.Reach) :
    Code.Valid r (.protect (code ++ [.ret (some (.name Emit.doneMark))])) := by
  refine ⟨fun v hv => ?_, validAll_append.2 ⟨h.valid _ trivial, trivial, trivial⟩⟩
  rw [dropLast_concat] at hv
  exact h.goesOn rfl v hv

/-- After a protected call that has failed with a value, the code does what
the flow does with it. -/
structure Rescues (L : CodeOracle H) (control : List Frame) (flow : Nat → H.Value → Flow H Unit)
    (code : Lua.Block) : Prop where
  runs : ∀ n env v, env.result = some (.prog v) →
    block L n code env = mapExit (encode control) (flow n v)
  valid : ∀ r, Reaches control r → Code.ValidBlock r code

def sourceHandler (h : Handler Emission) : Handler Expr := ⟨h.var, h.body.map Emission.source⟩

theorem execHandlers_of_getLast (hl : handlers.getLast? = some h) (n : Nat) (v : H.Value) :
    execHandlers M n v handlers = (do update (M.declare h.var v); execPart M n h.body) := by
  induction handlers with
  | nil => exact nomatch hl
  | cons c rest ih =>
    cases rest with
    | nil =>
      cases hl
      rfl
    | cons => exact ih hl

theorem labelsHandlers_of_getLast (hl : handlers.getLast? = some h) :
    labelsHandlers takes handlers = labelsPart takes h.body := by
  induction handlers with
  | nil => exact nomatch hl
  | cons c rest ih =>
    cases rest with
    | nil =>
      cases hl
      rfl
    | cons => exact ih hl

/-- Without a handler the value is thrown again. -/
theorem rescues_rethrow : Rescues L control (fun _ v => exit (.throw v))
    [.run (.call (.name "error") [.name Lua.resultName, .int 0])] where
  runs n env v hv := by
    have heval : Code.eval L env (.name Lua.resultName) = pure (.prog v) :=
      eval_local L (env.get?_result.trans hv)
    have hstep : step L n (.run (.call (.name "error") [.name Lua.resultName, .int 0])) env =
        Code.eval L env (.name Lua.resultName) >>= fun v => exit (.throw v) := rfl
    rw [block, closing_eq_void rfl, seq_singleton, hstep, heval]
    rfl
  valid _ _ := ⟨nofun, trivial, trivial⟩

/-- The variable of a handler is declared first. -/
theorem Does.rescues (h : Does L control true flow code) (hdecl : Declares M L) (var : Var) :
    Rescues L control (fun n v => do update (M.declare var v); flow n)
      (.localVar (Lua.localName var) (some (.name Lua.resultName)) :: code) where
  runs n env v hv := by
    have heval : Code.eval L env (.name Lua.resultName) = pure (.prog v) :=
      eval_local L (env.get?_result.trans hv)
    have hend : endLabel (.localVar (Lua.localName var) (some (.name Lua.resultName)) :: code) =
        none := (endLabel_localVar _ _ code).trans (endLabel_eq_none h.unlabelled)
    rw [Code.block, Code.closing_eq_void hend, Code.seq, Code.step, Code.evalOption, heval,
      pure_bind, hdecl.declare, bind_assoc, void_bind, mapExit_bind, mapExit_update]
    refine congrArg _ (funext fun _ => ?_)
    exact h.runs n env
  valid r hr := (h.validBlock hr).localVar _ _

theorem writes_handlerArm {handlers : List (Handler Emission)} (hdecl : Declares M L)
    (h : ∀ c ∈ handlers, ∀ e ∈ c.body, Emits M L scope takes e)
    (ho : ∀ c ∈ handlers, ∀ e ∈ c.body, Open control e.source) :
    Writes (inside scope control) (labelsHandlers takes (handlers.map sourceHandler))
      (Emission.handlerArm handlers)
      (Rescues L control fun n v => execHandlers M n v (handlers.map sourceHandler)) := by
  unfold Emission.handlerArm
  split
  · rename_i hnone
    cases getLast?_eq_none_iff.1 hnone
    exact writes_pure rescues_rethrow
  · rename_i c hlast
    have hmem := mem_of_getLast? hlast
    have hsource : (handlers.map sourceHandler).getLast? = some (sourceHandler c) := by
      rw [getLast?_map, hlast]
      rfl
    rw [labelsHandlers_of_getLast hsource]
    refine (writes_bodyOf (h c hmem) (ho c hmem) false).indented.map fun code hcode => ?_
    have hflow : (fun n v => execHandlers M n v (handlers.map sourceHandler)) = _ :=
      funext fun n => funext fun v => execHandlers_of_getLast hsource n v
    rw [hflow]
    exact hcode.rescues hdecl c.var

/-! ## What the body asks for -/

/-- It is there if needed, and its one statement satisfies `P`. -/
def ArmIf (needed : Bool) (cond : Lua.Expr) (P : Lua.Stmt → Prop)
    (arms : List (Lua.Arm Lua.Expr Lua.Stmt)) : Prop :=
  (needed = true ∧ ∃ s, P s ∧ arms = [⟨cond, [s]⟩]) ∨ (needed = false ∧ arms = [])

section Arms

variable {needed : Bool} {cond : Lua.Expr} {P : Lua.Stmt → Prop}
  {arms more : List (Lua.Arm Lua.Expr Lua.Stmt)} {env : Locals H.Value} {n : Nat}
  {rest : CodeFlow H Unit}

theorem writes_armIf {stmt : EmitM Lua.Stmt} (h : needed = true → Writes scope 0 stmt P) :
    Writes scope 0 (Emission.armIf needed cond stmt) (ArmIf needed cond P) := by
  cases needed with
  | false => exact writes_pure (.inr ⟨rfl, rfl⟩)
  | true => exact (h rfl).indented.map fun s hs => .inl ⟨rfl, s, hs, rfl⟩

theorem choose_cons (hc : Code.eval L env cond = pure (flag b)) (body : Lua.Block) :
    choose L n (⟨cond, body⟩ :: more) rest env =
      if b then block L n body env else choose L n more rest env := by
  rw [Code.choose, hc, pure_bind]
  have htruth : truth (flag (H := H) b) = b := H.truth_bool b
  rw [htruth]
  rfl

namespace ArmIf

theorem skip (h : ArmIf needed cond P arms) (hc : Code.eval L env cond = pure (flag false)) :
    choose L n (arms ++ more) rest env = choose L n more rest env := by
  rcases h with ⟨-, s, -, rfl⟩ | ⟨-, rfl⟩
  · exact choose_cons hc [s]
  · rfl

theorem take (h : ArmIf needed cond P arms) (hneeded : needed = true)
    (hc : Code.eval L env cond = pure (flag true)) :
    ∃ s, P s ∧ choose L n (arms ++ more) rest env = block L n [s] env := by
  rcases h with ⟨-, s, hs, rfl⟩ | ⟨hnot, -⟩
  · exact ⟨s, hs, choose_cons hc [s]⟩
  · rw [hneeded] at hnot
    exact nomatch hnot

theorem validArms (h : ArmIf needed cond P arms) {r : Code.Reach}
    (hP : ∀ s, P s → Code.ValidBlock r [s]) (hmore : Code.ValidArms r more) :
    Code.ValidArms r (arms ++ more) := by
  rcases h with ⟨-, s, hs, rfl⟩ | ⟨-, rfl⟩
  · exact ⟨hP s hs, hmore⟩
  · exact hmore

end ArmIf

/-- A result is compared with a mark. -/
theorem eval_resultIs {v : LuaValue H.Value} (hv : env.result = some v) (m : Mark) :
    Code.eval L env (Emission.resultIs .eq m.name) = pure (flag (same v (.mark m))) := by
  rw [Emission.resultIs, Code.eval, eval_local L (env.get?_result.trans hv), eval_mark]
  rfl

theorem eval_resultIsNot {v : LuaValue H.Value} (hv : env.result = some v) (m : Mark) :
    Code.eval L env (Emission.resultIs .ne m.name) = pure (flag !(same v (.mark m))) := by
  rw [Emission.resultIs, Code.eval, eval_local L (env.get?_result.trans hv), eval_mark]
  rfl

theorem eval_failed (hb : env.status = some (flag b)) :
    Code.eval L env (.not (.name Lua.statusName)) = pure (flag !b) := by
  have htruth : truth (flag (H := H) b) = b := H.truth_bool b
  rw [Code.eval, eval_local L (env.get?_status.trans hb), pure_bind, htruth]

end Arms

/-- The arms that do what a protected body has asked for, each there if
needed. -/
structure Redispatch (L : CodeOracle H) (control : List Frame) (breaks continues returns : Bool)
    (onBreak onContinue onReturn : List (Lua.Arm Lua.Expr Lua.Stmt)) : Prop where
  brk : ArmIf breaks (Emission.resultIs .eq Mark.brk.name) (Leaps L control .brk) onBreak
  cont : ArmIf continues (Emission.resultIs .eq Mark.cont.name) (Leaps L control .cont) onContinue
  ret : ArmIf returns (Emission.resultIs .ne Mark.done.name)
    (· = .ret (some (.name Lua.resultName))) onReturn

namespace Redispatch

variable {breaks continues returns : Bool}
  {onBreak onContinue onReturn : List (Lua.Arm Lua.Expr Lua.Stmt)} {n : Nat} {env : Locals H.Value}

/-- A body that ran to its end asks for nothing. -/
theorem runs_done (h : Redispatch L control breaks continues returns onBreak onContinue onReturn)
    (hv : env.result = some (.mark .done)) :
    choose L n (onBreak ++ (onContinue ++ onReturn)) (pure ()) env = pure () := by
  rw [h.brk.skip (eval_resultIs hv .brk), h.cont.skip (eval_resultIs hv .cont),
    ← append_nil onReturn, h.ret.skip (eval_resultIsNot hv .done)]
  rfl

/-- A break is done where the try stands. -/
theorem runs_brk (h : Redispatch L control breaks continues returns onBreak onContinue onReturn)
    (hneeded : breaks = true) (hv : env.result = some (.mark .brk)) :
    choose L n (onBreak ++ (onContinue ++ onReturn)) (pure ()) env =
      exit (encode control .brk) := by
  obtain ⟨s, hs, htake⟩ := h.brk.take hneeded (eval_resultIs hv .brk)
  rw [htake]
  exact hs.does.block n env

theorem runs_cont (h : Redispatch L control breaks continues returns onBreak onContinue onReturn)
    (hneeded : continues = true) (hv : env.result = some (.mark .cont)) :
    choose L n (onBreak ++ (onContinue ++ onReturn)) (pure ()) env =
      exit (encode control .cont) := by
  obtain ⟨s, hs, htake⟩ := h.cont.take hneeded (eval_resultIs hv .cont)
  rw [h.brk.skip (eval_resultIs hv .brk), htake]
  exact hs.does.block n env

/-- What the body has returned is no mark, so it is returned. -/
theorem runs_ret (h : Redispatch L control breaks continues returns onBreak onContinue onReturn)
    (hneeded : returns = true) {v : H.Value} (hv : env.result = some (.prog v)) :
    choose L n (onBreak ++ (onContinue ++ onReturn)) (pure ()) env = exit (.ret (.prog v)) := by
  obtain ⟨s, rfl, htake⟩ := h.ret.take hneeded (eval_resultIsNot hv .done)
  rw [h.brk.skip (eval_resultIs hv .brk), h.cont.skip (eval_resultIs hv .cont),
    ← append_nil onReturn, htake, block, closing_eq_void rfl, seq_singleton,
    step, evalOption, eval_local L (env.get?_result.trans hv)]
  rfl

theorem validArms (h : Redispatch L control breaks continues returns onBreak onContinue onReturn)
    {r : Code.Reach} (hr : Reaches control r) :
    Code.ValidArms r (onBreak ++ (onContinue ++ onReturn)) := by
  refine h.brk.validArms (fun s hs => hs.does.validBlock hr) ?_
  refine h.cont.validArms (fun s hs => hs.does.validBlock hr) ?_
  rw [← append_nil onReturn]
  refine h.ret.validArms ?_ trivial
  rintro s rfl
  exact ⟨nofun, trivial, trivial⟩

end Redispatch

def Covered (breaks continues returns : Bool) : Jump H.Value → Prop
  | .brk => breaks = true
  | .cont => continues = true
  | .ret _ => returns = true
  | .throw _ => True

/-- The protected call and its arms do what the try does. -/
theorem does_tryCatch {stmts failed : Lua.Block} {breaks continues returns : Bool}
    {onBreak onContinue onReturn : List (Lua.Arm Lua.Expr Lua.Stmt)}
    {handler : Nat → H.Value → Flow H Unit}
    (hbody : Does L (.protect :: control) false flow stmts)
    (hexits : ∀ n, Exits (flow n) (Covered breaks continues returns))
    (hfailed : Rescues L control handler failed)
    (hask : Redispatch L control breaks continues returns onBreak onContinue onReturn) :
    Does L control last (fun n => handle (flow n) (handler n))
      [.protect (stmts ++ [.ret (some (.name Emit.doneMark))]),
        .branches (⟨.not (.name Lua.statusName), failed⟩ ::
          (onBreak ++ (onContinue ++ onReturn))) none] where
  runs n env := by
    -- The branch tells a failed call from one that has returned.
    have hbranch (r : Bool × LuaValue H.Value) : void (seq L n [.branches
        (⟨.not (.name Lua.statusName), failed⟩ :: (onBreak ++ (onContinue ++ onReturn))) none]
          (reported env r)) =
        if !r.1 then block L n failed (reported env r)
        else choose L n (onBreak ++ (onContinue ++ onReturn)) (pure ()) (reported env r) := by
      rw [seq_singleton]
      exact (void_bind _ _).trans ((void_unit _).trans (choose_cons (eval_failed rfl) failed))
    rw [seq, hbody.protect, void_bind, bind_eq, after_after, handle, mapExit, after_after]
    refine (hexits n).after_congr (fun _ => ?_) fun j hj => ?_
    · exact (hbranch _).trans (hask.runs_done rfl)
    · cases j with
      | brk => exact (hbranch _).trans (hask.runs_brk hj rfl)
      | cont => exact (hbranch _).trans (hask.runs_cont hj rfl)
      | ret => exact (hbranch _).trans (hask.runs_ret hj rfl)
      | throw v => exact (hbranch _).trans (hfailed.runs n _ v rfl)
  valid r hr := ⟨hbody.validProtect r, ⟨⟨hfailed.valid r hr, hask.validArms hr⟩, trivial⟩, trivial⟩
  returnsLast v hv := Lua.Stmt.noConfusion (mem_singleton.1 hv)
  goesOn _ v hv := by
    rcases mem_cons.1 hv with hv | hv
    · cases hv
    · exact Lua.Stmt.noConfusion (mem_singleton.1 hv)
  unlabelled label hl := by
    rcases mem_cons.1 hl with hl | hl
    · cases hl
    · exact Lua.Stmt.noConfusion (mem_singleton.1 hl)

theorem Emits.tryCatch {body : Option Emission} {handlers : List (Handler Emission)} {loc : Loc}
    {type : Ty} (hdecl : Declares M L) (hb : ∀ e ∈ body, Emits M L scope takes e)
    (hh : ∀ c ∈ handlers, ∀ e ∈ c.body, Emits M L scope takes e) :
    Emits M L scope takes (.tryCatch loc type body handlers) := by
  refine ofStmt (fun _ => rfl) rfl fun control ho last => ?_
  have hob : ∀ e ∈ body, Open control e.source :=
    ho.part (fun _ h => mem_append_left _ h) rfl rfl
  have hoh : ∀ c ∈ handlers, ∀ e ∈ c.body, Open control e.source := by
    intro c hc e he
    refine ho.child (mem_append_right _ (mem_filterMap.2
      ⟨sourceHandler c, mem_map_of_mem hc, ?_⟩)) rfl rfl
    exact Option.mem_map_of_mem Emission.source he
  -- The body leaves only in ways for which an arm follows the protected call.
  have hexits (n : Nat) : Exits (execPart M n (body.map Emission.source))
      (Covered (body.any fun e => e.source.breaksLoop) (body.any fun e => e.source.continuesLoop)
        (body.any fun e => e.source.canReturn)) := by
    cases body with
    | none => exact exits_pure ()
    | some e =>
      refine (exits_exec M n e.source).mono fun j hj => ?_
      cases j <;> exact hj
  have hbreak : (body.any fun e => e.source.breaksLoop) = true →
      Writes (inside scope control) 0 (breakStmt loc) (Leaps L control .brk) := by
    intro hneeded
    cases body with
    | none => exact nomatch hneeded
    | some e => exact writes_breakStmt ((hob e rfl).brk hneeded) loc
  have hcontinue : (body.any fun e => e.source.continuesLoop) = true →
      Writes (inside scope control) 0 (continueStmt loc) (Leaps L control .cont) := by
    intro hneeded
    cases body with
    | none => exact nomatch hneeded
    | some e =>
      obtain ⟨hne, hlabel⟩ := (hob e rfl).cont hneeded
      exact writes_continueStmt hne hlabel loc
  have hreturn : (body.any fun e => e.source.canReturn) = true →
      Writes (inside scope control) 0 (return Lua.Stmt.ret (some (.name Lua.resultName)))
        (· = .ret (some (.name Lua.resultName))) := fun _ => writes_pure rfl
  have hprotected : ∀ e ∈ body, Open (.protect :: control) e.source := fun _ _ => open_protect
  have hbody := writes_bodyOf hb hprotected true
  refine (writes_within hbody.indented).bind fun stmts hs => ?_
  refine (writes_handlerArm hdecl hh hoh).bind_free fun failed hfailed => ?_
  refine (writes_armIf hbreak).bind_free fun onBreak hbrk => ?_
  refine (writes_armIf hcontinue).bind_free fun onContinue hcont => ?_
  refine (writes_armIf hreturn).map fun onReturn hret => ?_
  rw [append_assoc]
  exact does_tryCatch hs hexits hfailed ⟨hbrk, hcont, hret⟩

end LuaBackend.Control
