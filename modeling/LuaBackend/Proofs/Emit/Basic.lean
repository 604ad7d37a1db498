import LuaBackend.Emit.Tree

/-!
# What writing comes to

Writing in a context is writing in its scope, and the scope of each part
of a node follows from the scope of the node.
-/

namespace LuaBackend.Emit

namespace EmitM

variable {α β : Type} {x : EmitM α} {f : α → EmitM β} {scope : Scope} {frame : Frame}

@[simp] theorem run_pure (a : α) : (pure a : EmitM α).run = pure a := run_of _

@[simp] theorem run_bind : (x >>= f).run = x.run >>= fun a => (f a).run := run_of _

@[simp] theorem run_map (g : α → β) : (g <$> x).run = g <$> x.run := run_of _

instance : LawfulMonad EmitM := .mk' _
  (fun x => ext (by simp)) (fun a f => ext (by simp)) (fun x f g => ext (by simp))

/-- Two parts are written in the same scope. -/
theorem run_bind_apply : (x >>= f) scope = x scope >>= fun a => f a scope :=
  congrFun run_bind scope

theorem run_scope_bind {f : Scope → EmitM β} : (EmitM.scope >>= f) scope = f scope scope := by
  rw [run_bind_apply]
  rfl

/-- The frame is on the stack while the part is written. -/
@[simp] theorem run_within :
    (within frame x) scope = x { scope with control := frame :: scope.control } :=
  congrFun (run_of _) scope

/-- A function starts with an empty stack of control. -/
@[simp] theorem run_withinFunction :
    (withinFunction x) scope = x { scope with control := [], inCtor := false } :=
  congrFun (run_of _) scope

/-- Where lines stand does not matter for what is written. -/
@[simp] theorem indented_eq (x : EmitM α) : indented x = x := ext (run_of _)

theorem within_map (g : α → β) : within frame (g <$> x) = g <$> within frame x := by
  refine ext (funext fun scope => ?_)
  rw [run_within, run_map, run_map]
  change g <$> x _ = g <$> (within frame x) scope
  rw [run_within]

end EmitM

section

variable {α β : Type} {act : EmitM α} {f : α → EmitM β} {scope : Scope} {n n₁ n' : UInt32}
variable {a : α} {b : β} {fault : Fault}

/-- What was written was written in two parts. -/
theorem exists_of_bind (h : (act >>= f) scope n = .ok b n') :
    ∃ a n₁, act scope n = .ok a n₁ ∧ f a scope n₁ = .ok b n' := by
  rw [EmitM.run_bind_apply] at h
  exact exists_of_run_bind h

theorem bind_of_ok (h : act scope n = .ok a n₁) : (act >>= f) scope n = f a scope n₁ := by
  rw [EmitM.run_bind_apply, run_bind_ok h]

theorem bind_of_error (h : act scope n = .error fault n') :
    (act >>= f) scope n = .error fault n' := by
  rw [EmitM.run_bind_apply, run_bind_error h]

end

/-- The body of a loop, with what stands around it. -/
theorem Emission.loopBody_eq (body : Option Emission) (label : UInt32) (closed : Bool) :
    loopBody body label closed = (do
      let stmts ← within (.loop label) (bodyOf body false)
      if label = 0 then return if closed then [.scope stmts] else stmts
      else return [.scope stmts, .label label]) := by
  rw [loopBody, EmitM.indented_eq]
  by_cases hzero : label = 0
  · cases closed with
    | false => simp [hzero]
    | true => simp [hzero, EmitM.within_map]
  · simp [hzero, EmitM.within_map]

def valueOf (e : Expr) : EmitM Lua.Expr := (emit e).value

def blockOf (e : Expr) : EmitM Lua.Block := (emit e).body false

/-- The text of a value is written in its context. -/
theorem expression_eq (e : Expr) : expression e = do
    let code ← inContext (valueOf e).run
    return code.text (← get).layout := by
  rw [EmitM.run, (valueOf e).keeps]
  rfl

/-- The text of statements is written in its context. -/
theorem statements_eq (e : Expr) : statements e = do
    let code ← inContext (blockOf e).run
    return Lua.Stmt.texts (← get).layout code := by
  rw [EmitM.run, (blockOf e).keeps]
  rfl

end LuaBackend.Emit
