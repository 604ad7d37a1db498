import LuaBackend.Emit.Scope
import LuaBackend.Outcome

/-!
# Writing in a context

A context lasts over many trees and declarations. While a node is written
its parts push frames and levels onto it. Whoever pushes something pops it
again, also when a part has failed. So nothing is left of what was pushed
but the labels that were taken, and what is written depends on the scope
and on the next label alone. `EmitM` is writing of which this holds.
-/

namespace LuaBackend.Emit

variable {α β : Type}

/-- Writing in a context, which is kept also on failure. -/
abbrev Write := EStateM Fault Context

/-- Writes in a context that is changed before, and changed back after, be
it on success or on failure. What is changed back may depend on the context
at the beginning. -/
def guarded (enter : Context → Context) (leave : (before after : Context) → Context)
    (act : Write α) : Write α := fun context =>
  match act (enter context) with
  | .ok value after => .ok value (leave context after)
  | .error fault after => .error fault (leave context after)

/-- Writes lines one level deeper. -/
def deeper : Write α → Write α := guarded .deepen fun _ => .raise

/-- Writing in a given scope, with a counter of labels. -/
abbrev Scoped := ReaderT Scope (EStateM Fault UInt32)

/-- Writes in the scope of the context. Nothing changes in the context but
the counter of labels. -/
def inContext (act : Scoped α) : Write α := fun context =>
  match act context.scope context.nextLabel with
  | .ok value label => .ok value { context with nextLabel := label }
  | .error fault label => .error fault { context with nextLabel := label }

/-- What is written in a scope, in a context that is empty otherwise. -/
def inScope (act : Write α) : Scoped α := fun scope label =>
  match act { scope, nextLabel := label } with
  | .ok value context => .ok value context.nextLabel
  | .error fault context => .error fault context.nextLabel

section

variable {act : Scoped α} {context : Context} {label : UInt32}

theorem inContext_of_ok {a : α} (h : act context.scope context.nextLabel = .ok a label) :
    inContext act context = .ok a { context with nextLabel := label } := by
  rw [inContext, h]

theorem inContext_of_error {fault : Fault}
    (h : act context.scope context.nextLabel = .error fault label) :
    inContext act context = .error fault { context with nextLabel := label } := by
  rw [inContext, h]

theorem inScope_inContext (act : Scoped α) : inScope (inContext act) = act := by
  funext scope label
  rw [inScope, inContext]
  cases act scope label <;> rfl

theorem inContext_inScope {written : Write α} (h : inContext act = written) :
    inContext (inScope written) = written := by
  rw [← h, inScope_inContext]

theorem inContext_bind (act : Scoped α) (f : α → Scoped β) :
    inContext (act >>= f) = inContext act >>= fun a => inContext (f a) := by
  funext context
  have hbind : (act >>= f) context.scope context.nextLabel =
      (act context.scope >>= fun a => f a context.scope) context.nextLabel := rfl
  cases hact : act context.scope context.nextLabel with
  | ok => rw [run_bind_ok (inContext_of_ok hact), inContext, hbind, run_bind_ok hact, inContext]
  | error => rw [run_bind_error (inContext_of_error hact), inContext, hbind, run_bind_error hact]

end

/-- Writing that leaves nothing behind in the context but labels that were
taken, and depends on the scope and the next label alone. -/
structure EmitM (α : Type) where
  act : Write α
  keeps : inContext (inScope act) = act

namespace EmitM

/-- What is written in a scope. -/
def run (x : EmitM α) : Scoped α := inScope x.act

instance : CoeFun (EmitM α) fun _ => Scope → EStateM Fault UInt32 α := ⟨run⟩

/-- Writing that comes to writing in a scope. -/
def of (act : Write α) (plain : Scoped α) (h : inContext plain = act) : EmitM α where
  act := act
  keeps := inContext_inScope h

theorem run_of {act : Write α} {plain : Scoped α} (h : inContext plain = act) :
    (of act plain h).run = plain := by
  subst h
  exact inScope_inContext plain

@[ext] theorem ext {x y : EmitM α} (h : x.run = y.run) : x = y := by
  have hact : x.act = y.act := x.keeps.symm.trans ((congrArg inContext h).trans y.keeps)
  cases x
  cases hact
  rfl

theorem act_apply (x : EmitM α) (context : Context) : x.act context = inContext x.run context :=
  congrFun x.keeps.symm context

theorem inContext_run_bind (x : EmitM α) (f : α → EmitM β) :
    inContext (x.run >>= fun a => (f a).run) = x.act >>= fun a => (f a).act := by
  have hf : (fun a => inContext (f a).run) = fun a => (f a).act := funext fun a => (f a).keeps
  rw [inContext_bind, hf]
  exact congrArg (· >>= _) x.keeps

/-- A guard that changes back what it has changed leaves nothing but the
labels that were taken. -/
theorem inContext_guarded (x : EmitM α) (narrow : Scope → Scope) {enter : Context → Context}
    {leave : Context → Context → Context}
    (henter : ∀ context, narrow context.scope = (enter context).scope ∧
      context.nextLabel = (enter context).nextLabel)
    (hleave : ∀ context label, leave context { enter context with nextLabel := label } =
      { context with nextLabel := label }) :
    inContext (withReader narrow x.run) = guarded enter leave x.act := by
  funext context
  have hrun : withReader narrow x.run context.scope context.nextLabel =
      x.run (enter context).scope (enter context).nextLabel := by
    rw [← (henter context).1, ← (henter context).2]
    rfl
  rw [guarded, act_apply, inContext, inContext, hrun]
  cases x.run (enter context).scope (enter context).nextLabel with
  | ok => simp only [hleave]
  | error => simp only [hleave]

instance : Monad EmitM where
  pure a := of (pure a) (pure a) rfl
  bind x f := of (x.act >>= fun a => (f a).act) _ (inContext_run_bind x f)

/-- The surroundings of the node being written. -/
def scope : EmitM Scope := of (return (← get).scope) read rfl

/-- Takes the next label. -/
def freshLabel : EmitM UInt32 :=
  of (modifyGet fun context =>
      (context.nextLabel, { context with nextLabel := context.nextLabel + 1 }))
    (modifyGetThe UInt32 fun label => (label, label + 1)) rfl

/-- Fails. -/
def refuse (fault : Fault) : EmitM α := of (throw fault) (throwThe Fault fault) rfl

/-- Writes inside a loop or protected body. -/
def within (frame : Frame) (x : EmitM α) : EmitM α :=
  of (guarded (.push frame) (fun _ => .pop) x.act)
    (withReader (fun scope => { scope with control := frame :: scope.control }) x.run)
    (inContext_guarded x _ (fun _ => ⟨rfl, rfl⟩) fun _ _ => rfl)

/-- Writes inside a function literal, whose jumps stay inside it. -/
def withinFunction (x : EmitM α) : EmitM α :=
  of (guarded .clear .restore x.act)
    (withReader (fun scope => { scope with control := [], inCtor := false }) x.run)
    (inContext_guarded x _ (fun _ => ⟨rfl, rfl⟩) fun _ _ => rfl)

/-- Writes lines that are indented one level deeper. -/
def indented (x : EmitM α) : EmitM α :=
  of (deeper x.act) x.run (inContext_guarded x id (fun _ => ⟨rfl, rfl⟩) fun _ _ => rfl)

end EmitM

export EmitM (freshLabel refuse within withinFunction indented)

/-- Fails on a construct without a rendering. -/
def unsupported (construct : Construct) (loc : Loc) : EmitM α :=
  refuse (.unsupported construct loc)

/-- The value a protected body returns when it has run to its end. -/
def doneMark : String := "_hx_pcall_default"

/-- The value a protected body returns to ask for a break. -/
def breakMark : String := "_hx_pcall_break"

/-- The value a protected body returns to ask for a continue. -/
def continueMark : String := "_hx_pcall_continue"

/-- The statement for a break. A protected body returns to ask for it. -/
def breakStmt (loc : Loc) : EmitM Lua.Stmt := do
  match (← EmitM.scope).control with
  | [] => unsupported .breakOutsideLoop loc
  | .protect :: _ => return .ret (some (.name breakMark))
  | .loop _ :: _ => return .brk

/-- The statement for a continue. -/
def continueStmt (loc : Loc) : EmitM Lua.Stmt := do
  match (← EmitM.scope).control with
  | [] => unsupported .continueOutsideLoop loc
  | .protect :: _ => return .ret (some (.name continueMark))
  | .loop label :: _ =>
    if label = 0 then refuse .unlabelledContinue else return .goto label

end LuaBackend.Emit
