import LuaBackend.Proofs.Semantics.Machine
import LuaBackend.Tree.Query

/-!
# What trees do

The meaning of a tree, evaluated from left to right. `&&`, `||` and `??`
evaluate their right side only if they need it. A block yields the value
of its last expression, an assignment the value that it stores. A switch
evaluates its subject once, and the values of its cases in order until one
matches. Declarations, loops and branches that are not there yield null.
The jumps of the condition of a loop are those of the loop. A loop is
granted a number of rounds; everything else ends.
-/

namespace LuaBackend

open Exec

/-- A place that is assigned to, its parts evaluated. -/
inductive Place (V : Type) where
  | local (y : UInt32)
  | member (ref : MemberRef) (receiver : Option V)
  | element (base position : V)
  /-- What is assigned to is no place. -/
  | nowhere

namespace Exec

variable {M : Machine}

def load : Place M.Value → Exec M M.Value
  | .local y => get y
  | .member ref receiver => read (M.member ref receiver)
  | .element base position => read (M.element base position)
  | .nowhere => pure M.null

def store (place : Place M.Value) (v : M.Value) : Exec M Unit :=
  match place with
  | .local y => set y v
  | .member ref receiver => modify (M.setMember ref receiver v)
  | .element base position => modify (M.setElement base position v)
  | .nowhere => pure ()

def binary (op : BinaryOp) (lhs : Exec M M.Value) (place : Exec M (Place M.Value))
    (rhs : Exec M M.Value) : Exec M M.Value :=
  match op with
  | .assign => do
    let p ← place
    let v ← rhs
    store p v
    return v
  | .compound op => do
    let p ← place
    let old ← load p
    let v ← rhs
    store p (M.binary op old v)
    return M.binary op old v
  | .and => do
    let a ← lhs
    if M.truth a then rhs else return a
  | .or => do
    let a ← lhs
    if M.truth a then return a else rhs
  | .nullCoalesce => do
    let a ← lhs
    if M.isNull a then rhs else return a
  | op => do
    let a ← lhs
    let b ← rhs
    return M.binary op a b

def unary (op : UnaryOp) (isPost : Bool) (operand : Exec M M.Value)
    (place : Exec M (Place M.Value)) : Exec M M.Value := do
  if op.isStep then
    let p ← place
    let old ← load p
    let new := M.binary op.stepOp old (M.const (.int 1))
    store p new
    return if isPost then old else new
  else return M.unary op (← operand)

end Exec

section

variable (M : Machine) (rounds : Nat)

open Exec

mutual

def eval : Expr → Exec M M.Value
  | .omitted => pure M.null
  | .const _ _ c => pure (M.const c)
  | .local _ var => get var.id
  | .field _ _ ref receiver =>
    if ref.access = .enumCtor then pure (M.ctor ref)
    else do read (M.member ref (← evalReceiver receiver))
  | .index _ _ base position => do
    let b ← eval base
    let p ← eval position
    read (M.element b p)
  | .paren _ _ inner => eval inner
  | .annot _ _ _ inner => eval inner
  | .object _ _ fields => do perform (.object (fields.map FieldInit.name) (← evalFields fields))
  | .array _ _ elements => do perform (.array (← evalList elements))
  | .typeRef _ _ path => pure (M.typeValue path)
  | .call _ _ (.field _ _ ref receiver) args => do
    let r ← evalReceiver receiver
    let vs ← evalList args
    perform (.call (.member ref r) vs)
  | .call _ _ (.ident _ _ name) args => do perform (.call (.named name) (← evalList args))
  | .call _ _ callee args => do
    let f ← eval callee
    let vs ← evalList args
    perform (.call (.value f) vs)
  | .new _ _ cls _ args => do perform (.new cls (← evalList args))
  | .binary _ _ op lhs rhs => binary op (eval lhs) (evalPlace lhs) (eval rhs)
  | .unary _ _ op isPost operand => unary op isPost (eval operand) (evalPlace operand)
  | e@(.function ..) => pure (M.closure e)
  | .varDecl _ var init => do
    set var.id (← evalPart init)
    return M.null
  | .block _ _ exprs => evalSeq M.null exprs
  | .forIn _ var iterator body => do
    let it ← eval iterator
    loop (advance var.id it (evalPart body)) rounds
  | .ite _ _ cond onTrue onFalse => do
    if M.truth (← eval cond) then evalPart onTrue else evalPart onFalse
  | .loop _ .before cond body => loop (testThen (eval cond) (evalPart body)) rounds
  | .loop _ .after cond body => loopAfter (eval cond) (evalPart body) rounds
  | .switch _ _ subject cases default => do
    let s ← eval subject
    select s (evalPart default) (evalCases cases)
  | .ret _ value => do jump (.ret (← evalPart value))
  | .brk _ => jump .brk
  | .cont _ => jump .cont
  | .throw _ value => do jump (.throw (← eval value))
  | .cast _ _ none inner => eval inner
  | .cast _ _ (some path) inner => do perform (.cast path (← eval inner))
  | .tryCatch _ _ body handlers =>
    handle (evalPart body) fun v => rescue v (evalHandlers handlers)
  | .enumParam _ _ value ctor slot => do read (M.enumParam ctor slot (← eval value))
  | .enumIndex _ value => do read (M.enumIndex (← eval value))
  | .ident _ _ name => read (M.ident name)

def evalPlace : Expr → Exec M (Place M.Value)
  | .local _ var => pure (.local var.id)
  | .field _ _ ref receiver => do return .member ref (← evalReceiver receiver)
  | .index _ _ base position => do
    let b ← eval base
    let p ← eval position
    return .element b p
  | .paren _ _ inner => evalPlace inner
  | .annot _ _ _ inner => evalPlace inner
  | _ => pure .nowhere

def evalList : List Expr → Exec M (List M.Value)
  | [] => pure []
  | e :: rest => do
    let v ← eval e
    let vs ← evalList rest
    return v :: vs

def evalFields : List (FieldInit Expr) → Exec M (List M.Value)
  | [] => pure []
  | ⟨_, value⟩ :: rest => do
    let v ← eval value
    let vs ← evalFields rest
    return v :: vs

def evalReceiver : Option Expr → Exec M (Option M.Value)
  | none => pure none
  | some e => do return some (← eval e)

def evalPart : Option Expr → Exec M M.Value
  | none => pure M.null
  | some e => eval e

/-- The value of the last expression, or the given one if there is
none. -/
def evalSeq (last : M.Value) : List Expr → Exec M M.Value
  | [] => pure last
  | e :: rest => do
    let v ← eval e
    evalSeq v rest

def evalCases : List (Case Expr) → List (List (Exec M M.Value) × Exec M M.Value)
  | [] => []
  | ⟨values, body⟩ :: rest => (evalEach values, evalPart body) :: evalCases rest

def evalHandlers : List (Handler Expr) → List (Var × Exec M M.Value)
  | [] => []
  | ⟨var, body⟩ :: rest => (var, evalPart body) :: evalHandlers rest

def evalEach : List Expr → List (Exec M M.Value)
  | [] => []
  | e :: rest => eval e :: evalEach rest

end

end

variable {M : Machine}

/-- An operator that neither assigns nor is lazy takes both operands. -/
theorem Exec.binary_strict {op : BinaryOp} {lhs rhs : Exec M M.Value}
    {place : Exec M (Place M.Value)} (hop : op.isMutating = false) (hand : op ≠ .and)
    (hor : op ≠ .or) :
    binary op lhs place rhs = (do let a ← lhs; let b ← rhs; return M.binary op a b) := by
  unfold binary
  split
  · exact nomatch hop
  · exact nomatch hop
  · exact absurd rfl hand
  · exact absurd rfl hor
  · exact nomatch hop
  · rfl

/-- What is pure has a value and changes nothing. -/
theorem eval_of_isPure {rounds : Nat} (τ : State M) : ∀ e : Expr, e.isPure = true →
    ∃ a, eval M rounds e τ = some (.ok a, τ)
  | .omitted, _ | .const .., _ | .local .., _ | .typeRef .., _ | .function .., _ => ⟨_, rfl⟩
  | .field _ _ ref none, _ => by
    rw [eval]
    split
    · exact ⟨_, rfl⟩
    · exact ⟨_, rfl⟩
  | .field _ _ ref (some receiver), h => by
    obtain ⟨a, ha⟩ := eval_of_isPure τ receiver h
    rw [eval]
    split
    · exact ⟨_, rfl⟩
    · refine ⟨M.member ref (some a) τ.world, ?_⟩
      rw [evalReceiver, bind_of_ok (bind_of_ok ha)]
      rfl
  | .index _ _ base position, h => by
    simp only [Expr.isPure, Bool.and_eq_true] at h
    obtain ⟨b, hb⟩ := eval_of_isPure τ base h.1
    obtain ⟨p, hp⟩ := eval_of_isPure τ position h.2
    refine ⟨M.element b p τ.world, ?_⟩
    rw [eval, bind_of_ok hb, bind_of_ok hp]
    rfl
  | .paren _ _ inner, h => eval_of_isPure τ inner h
  | .annot _ _ _ inner, h => eval_of_isPure τ inner h
  | .cast _ _ none inner, h => eval_of_isPure τ inner h
  | .enumParam _ _ value ctor slot, h => by
    obtain ⟨a, ha⟩ := eval_of_isPure τ value h
    refine ⟨M.enumParam ctor slot a τ.world, ?_⟩
    rw [eval, bind_of_ok ha]
    rfl
  | .enumIndex _ value, h => by
    obtain ⟨a, ha⟩ := eval_of_isPure τ value h
    refine ⟨M.enumIndex a τ.world, ?_⟩
    rw [eval, bind_of_ok ha]
    rfl
  | .binary _ _ op lhs rhs, h => by
    simp only [Expr.isPure, Bool.and_eq_true, Bool.not_eq_true'] at h
    obtain ⟨a, ha⟩ := eval_of_isPure τ lhs h.1.2
    obtain ⟨b, hb⟩ := eval_of_isPure τ rhs h.2
    rw [eval]
    by_cases hand : op = .and
    · rw [hand, binary, bind_of_ok ha]
      split
      · exact ⟨b, hb⟩
      · exact ⟨a, rfl⟩
    · by_cases hor : op = .or
      · rw [hor, binary, bind_of_ok ha]
        split
        · exact ⟨a, rfl⟩
        · exact ⟨b, hb⟩
      · refine ⟨M.binary op a b, ?_⟩
        rw [binary_strict h.1.1 hand hor, bind_of_ok ha, bind_of_ok hb]
        rfl
  | .unary _ _ op _ operand, h => by
    simp only [Expr.isPure, Bool.and_eq_true, Bool.not_eq_true'] at h
    obtain ⟨a, ha⟩ := eval_of_isPure τ operand h.2
    refine ⟨M.unary op a, ?_⟩
    rw [eval, unary, h.1]
    exact bind_of_ok ha

/-- The fields of an object are a list of values. -/
theorem evalFields_eq {M : Machine} {rounds : Nat} (fields : List (FieldInit Expr)) :
    evalFields M rounds fields = evalList M rounds (fields.map FieldInit.value) := by
  induction fields with
  | nil => rfl
  | cons f rest ih => rw [evalFields, ih, List.map_cons, evalList]

end LuaBackend
