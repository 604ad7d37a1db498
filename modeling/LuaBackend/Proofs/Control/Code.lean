import LuaBackend.Emit.Node
import LuaBackend.Proofs.Control.Flow

/-!
# The control flow of Lua code

What generated code does. Expressions and statements are left to an
oracle, except for those that generated control flow is made of: locals
for the status and result of a protected call and for an iterator, marks,
comparisons, `not` and `or`, branches, loops, jumps and protected calls.

Locals are scoped as Lua scopes them. A break or a jump that would leave a
function is stuck; so is whatever takes a mark for a value of the program.

`Valid` is what Lua asks of a block before it runs it: a return is the
last statement of its block, a break stands in a loop, and the label of a
jump is in sight.
-/

namespace LuaBackend.Control

/-- What a protected body returns to say how it has ended. -/
inductive Mark where
  | done
  | brk
  | cont
deriving DecidableEq

def Mark.name : Mark → String
  | done => Emit.doneMark
  | brk => Emit.breakMark
  | cont => Emit.continueMark

def Mark.named? (name : String) : Option Mark :=
  if name = Emit.doneMark then some .done
  else if name = Emit.breakMark then some .brk
  else if name = Emit.continueMark then some .cont
  else none

/-- A value of the program, or a mark. -/
inductive LuaValue (V : Type) where
  | prog (v : V)
  | mark (m : Mark)

/-- How Lua code ends before its end. -/
inductive LuaExit (V : Type) where
  | brk
  | goto (label : UInt32)
  | ret (v : LuaValue V)
  | throw (v : LuaValue V)
  | stuck

/-- The locals of generated control flow that are in scope. -/
structure Locals (V : Type) where
  status : Option (LuaValue V) := none
  result : Option (LuaValue V) := none
  iterator : Option (LuaValue V) := none

def Locals.get? {V : Type} (env : Locals V) (name : String) : Option (LuaValue V) :=
  if name = Lua.statusName then env.status
  else if name = Lua.resultName then env.result
  else if name = Emit.Emission.iteratorName then env.iterator
  else none

theorem Mark.named?_name (m : Mark) : Mark.named? m.name = some m := by
  cases m <;> decide

section

variable {V : Type} (env : Locals V)
include env

theorem Locals.get?_mark (m : Mark) : env.get? m.name = none := by
  cases m <;> rfl

theorem Locals.get?_status : env.get? Lua.statusName = env.status := rfl

theorem Locals.get?_result : env.get? Lua.resultName = env.result := rfl

theorem Locals.get?_iterator : env.get? Emit.Emission.iteratorName = env.iterator := rfl

end

abbrev CodeFlow (H : Host) (α : Type) : Type := Run H.State (LuaExit H.Value) α

abbrev CodeOracle (H : Host) : Type := Oracle H Lua.Expr Lua.Stmt String

namespace Code

open Run

variable {H : Host}

def thrown (v : H.Value) : LuaExit H.Value := .throw (.prog v)

def truth : LuaValue H.Value → Bool
  | .prog v => H.truth v
  | .mark _ => true

def same : LuaValue H.Value → LuaValue H.Value → Bool
  | .prog v, .prog w => H.same v w
  | .mark m, .mark m' => m = m'
  | _, _ => false

def flag (b : Bool) : LuaValue H.Value := .prog (H.bool b)

def given (f : H.State → Except H.Value H.Value × H.State) : CodeFlow H (LuaValue H.Value) := do
  return .prog (← attempt thrown f)

def call (name : String) : LuaValue H.Value → CodeFlow H (LuaValue H.Value)
  | .prog v => given (H.invoke v name)
  | .mark _ => exit .stuck

def turn (body : CodeFlow H Unit) : CodeFlow H Bool := body.after fun
  | .ok () => pure true
  | .error .brk => pure false
  | .error e => exit e

/-- Whether the function has returned, and what it has returned or thrown. -/
def protectedCall (body : CodeFlow H Unit) : CodeFlow H (Bool × LuaValue H.Value) := body.after fun
  | .ok () => pure (true, .prog H.nil)
  | .error (.ret v) => pure (true, v)
  | .error (.throw v) => pure (false, v)
  | .error _ => exit .stuck

def endLabel (stmts : Lua.Block) : Option UInt32 :=
  match stmts.getLast? with
  | some (.label label) => some label
  | _ => none

def closing {α : Type} (stmts : Lua.Block) (x : CodeFlow H α) : CodeFlow H Unit := x.after fun
  | .ok _ => pure ()
  | .error (.goto label) => if endLabel stmts = some label then pure () else exit (.goto label)
  | .error e => exit e

/-- A turn of a loop that tests after its body. The test sees the locals of
the body; a jump to its end goes on to the test. -/
def turnThen (stmts : Lua.Block) (env : Locals H.Value) (body : CodeFlow H (Locals H.Value))
    (test : Locals H.Value → CodeFlow H Bool) : CodeFlow H Bool := body.after fun
  | .ok inner => test inner
  | .error .brk => pure false
  | .error (.goto label) => if endLabel stmts = some label then test env else exit (.goto label)
  | .error e => exit e

/-- A test that does not look at locals follows the turn. -/
theorem turnThen_eq {stmts : Lua.Block} {env : Locals H.Value} {body : CodeFlow H (Locals H.Value)}
    {test : Locals H.Value → CodeFlow H Bool} {t : CodeFlow H Bool} (h : ∀ env, test env = t) :
    turnThen stmts env body test =
      do if ← turn (closing stmts body) then t else return false := by
  rw [turn, closing, bind_eq, after_after, after_after]
  refine congrArg body.after (funext fun r => ?_)
  rcases r with e | inner
  · cases e with
    | goto =>
      dsimp only
      split
      · exact h env
      · rfl
    | brk | ret | throw | stuck => rfl
  · exact h inner

/-- What a call of `error` throws. -/
def thrown? : Lua.Expr → Option Lua.Expr
  | .call (.name f) [e, _] => if f = "error" then some e else none
  | _ => none

section

variable (L : CodeOracle H)

def ask (e : Lua.Expr) : CodeFlow H (LuaValue H.Value) := given (L.value e)

def eval (env : Locals H.Value) : Lua.Expr → CodeFlow H (LuaValue H.Value)
  | .name text =>
    match (env.get? text).or ((Mark.named? text).map .mark) with
    | some v => pure v
    | none => ask L (.name text)
  | .bool b => pure (flag b)
  | .paren e => eval env e
  | .not e => do return flag !(truth (← eval env e))
  | .binary .or a b => do
    let v ← eval env a
    if truth v then return v else eval env b
  | .binary .eq a b => do
    let v ← eval env a
    return flag (same v (← eval env b))
  | .binary .ne a b => do
    let v ← eval env a
    return flag !(same v (← eval env b))
  | .method (.name text) name [] =>
    match env.get? text with
    | some v => call name v
    | none => ask L (.method (.name text) name [])
  | e => ask L e

theorem eval_mark (env : Locals H.Value) (m : Mark) :
    eval L env (.name m.name) = pure (.mark m) := by
  rw [eval, env.get?_mark, Mark.named?_name]
  rfl

theorem eval_local {env : Locals H.Value} {text : String} {v : LuaValue H.Value}
    (h : env.get? text = some v) : eval L env (.name text) = pure v := by
  rw [eval, h]
  rfl

theorem eval_invoke {env : Locals H.Value} {text name : String} {v : H.Value}
    (h : env.get? text = some (.prog v)) :
    eval L env (.method (.name text) name []) = given (H.invoke v name) := by
  rw [eval, h]
  rfl

def evalOption (env : Locals H.Value) : Option Lua.Expr → CodeFlow H (LuaValue H.Value)
  | none => pure (.prog H.nil)
  | some e => eval L env e

def declare (env : Locals H.Value) (name : String) (v : LuaValue H.Value) :
    CodeFlow H (Locals H.Value) :=
  if name = Emit.Emission.iteratorName then return { env with iterator := some v }
  else match v with
    | .prog v => do
      update (L.declare name v)
      return env
    | .mark _ => exit .stuck

variable (n : Nat)

mutual

/-- What a statement does, with every loop granted `n` rounds, and the
locals after it. -/
def step : Lua.Stmt → Locals H.Value → CodeFlow H (Locals H.Value)
  | .localVar name init, env => do declare L env name (← evalOption L env init)
  | .ret v, env => do exit (.ret (← evalOption L env v))
  | .retInside v, env => do exit (.ret (← evalOption L env v))
  | .brk, _ => exit .brk
  | .goto label, _ => exit (.goto label)
  | .label _, env => return env
  | .scope body, env => do
    closing body (seq body env)
    return env
  | .loopWhile cond body, env => do
    rounds (do
      if truth (← eval L env cond) then turn (closing body (seq body env)) else return false) n
    return env
  | .loopUntilNot body cond, env => do
    rounds (turnThen body env (seq body env) fun inner => do
      return truth (← eval L inner cond)) n
    return env
  | .test cond, env => do
    let _ ← eval L env cond
    return env
  | .branches arms rest, env => do
    choose arms (otherwise rest env) env
    return env
  | .protect body, env => do
    let (ok, v) ← protectedCall (closing body (seq body env))
    return { env with status := some (flag ok), result := some v }
  | .run e, env =>
    match thrown? e with
    | some e => do exit (.throw (← eval L env e))
    | none => do
      attempt thrown (L.simple (.run e))
      return env
  | s, env => do
    attempt thrown (L.simple s)
    return env

def seq : List Lua.Stmt → Locals H.Value → CodeFlow H (Locals H.Value)
  | [], env => return env
  | s :: rest, env => do seq rest (← step s env)

def choose : List (Lua.Arm Lua.Expr Lua.Stmt) → CodeFlow H Unit → Locals H.Value → CodeFlow H Unit
  | [], rest, _ => rest
  | ⟨cond, body⟩ :: arms, rest, env => do
    if truth (← eval L env cond) then closing body (seq body env) else choose arms rest env

def otherwise : Option (List Lua.Stmt) → Locals H.Value → CodeFlow H Unit
  | none, _ => return ()
  | some body, env => closing body (seq body env)

end

def block (stmts : Lua.Block) (env : Locals H.Value) : CodeFlow H Unit :=
  closing stmts (seq L n stmts env)

theorem seq_append (a b : Lua.Block) (env : Locals H.Value) :
    seq L n (a ++ b) env = seq L n a env >>= seq L n b := by
  induction a generalizing env with
  | nil => rfl
  | cons s rest ih =>
    rw [List.cons_append, seq, seq, bind_assoc]
    exact congrArg _ (funext fun env' => ih env')

theorem seq_singleton (s : Lua.Stmt) (env : Locals H.Value) :
    seq L n [s] env = step L n s env := bind_pure (step L n s env)

end

theorem endLabel_eq_none {stmts : Lua.Block} (h : ∀ label, .label label ∉ stmts) :
    endLabel stmts = none := by
  unfold endLabel
  split
  · rename_i label hlast
    exact absurd (List.mem_of_getLast? hlast) (h label)
  · rfl

theorem endLabel_localVar (name : String) (init : Option Lua.Expr) (stmts : Lua.Block) :
    endLabel (.localVar name init :: stmts) = endLabel stmts := by
  cases stmts <;> rfl

/-- A block without a label at its end catches no jump. -/
theorem closing_eq_void {α : Type} {stmts : Lua.Block} (h : endLabel stmts = none)
    (x : CodeFlow H α) : closing stmts x = void x := by
  unfold closing
  rw [h]
  refine congrArg x.after (funext fun r => ?_)
  rcases r with e | a
  · cases e <;> rfl
  · rfl

/-- What breaks and jumps can reach. -/
structure Reach where
  inLoop : Bool := false
  labels : List UInt32 := []

def Reach.into (r : Reach) (stmts : Lua.Block) : Reach :=
  { r with labels := (endLabel stmts).toList ++ r.labels }

def Reach.loop (r : Reach) : Reach := { r with inLoop := true }

def ReturnsLast (stmts : Lua.Block) : Prop := ∀ v, .ret v ∉ stmts.dropLast

mutual

/-- Lua accepts the statement where these breaks and jumps are possible. -/
def Valid (r : Reach) : Lua.Stmt → Prop
  | .brk => r.inLoop = true
  | .goto label => label ∈ r.labels
  | .scope body => ReturnsLast body ∧ ValidAll (r.into body) body
  | .loopWhile _ body => ReturnsLast body ∧ ValidAll (r.loop.into body) body
  | .loopUntilNot body _ => ReturnsLast body ∧ ValidAll (r.loop.into body) body
  | .branches arms rest => ValidArms r arms ∧ ValidOption r rest
  | .protect body => ReturnsLast body ∧ ValidAll (Reach.into {} body) body
  | _ => True

def ValidAll (r : Reach) : List Lua.Stmt → Prop
  | [] => True
  | s :: rest => Valid r s ∧ ValidAll r rest

def ValidArms (r : Reach) : List (Lua.Arm Lua.Expr Lua.Stmt) → Prop
  | [] => True
  | ⟨_, body⟩ :: arms => (ReturnsLast body ∧ ValidAll (r.into body) body) ∧ ValidArms r arms

def ValidOption (r : Reach) : Option (List Lua.Stmt) → Prop
  | none => True
  | some body => ReturnsLast body ∧ ValidAll (r.into body) body

end

def ValidBlock (r : Reach) (stmts : Lua.Block) : Prop :=
  ReturnsLast stmts ∧ ValidAll (r.into stmts) stmts

theorem validAll_append {r : Reach} {a b : Lua.Block} :
    ValidAll r (a ++ b) ↔ ValidAll r a ∧ ValidAll r b := by
  induction a with
  | nil => simp [ValidAll]
  | cons s rest ih => simp [ValidAll, ih, and_assoc]

/-- A declaration may stand in front of any block. -/
theorem ValidBlock.localVar {r : Reach} {stmts : Lua.Block} (h : ValidBlock r stmts) (name : String)
    (init : Option Lua.Expr) : ValidBlock r (.localVar name init :: stmts) := by
  refine ⟨fun v hv => ?_, trivial, ?_⟩
  · cases stmts with
    | nil => exact nomatch hv
    | cons =>
      rcases List.mem_cons.1 hv with hv | hv
      · exact nomatch hv
      · exact h.1 v hv
  · rw [Reach.into, endLabel_localVar]
    exact h.2

theorem Reach.into_eq_self {r : Reach} {stmts : Lua.Block} (h : endLabel stmts = none) :
    r.into stmts = r := by
  rw [Reach.into, h]
  rfl

end Code

end LuaBackend.Control
