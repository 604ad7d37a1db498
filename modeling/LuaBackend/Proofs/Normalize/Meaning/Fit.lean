import LuaBackend.Normalize.Hoist
import LuaBackend.Proofs.Semantics.Simulation
import LuaBackend.Proofs.Tree.NormalForm

/-!
# Trees whose meaning is kept

What normalization asks of a tree so that it keeps its meaning. Locals
have numbers below those of temporaries, and are read where they are in
scope. Functions, and methods that become functions, do not occur. Only
locals are assigned to.

The rest is what typed programs have by themselves. A block, branch,
switch or try that is used for its value has a type that has values;
assigned to a local, or to the right of `&&` or `||`, it yields a value
whichever way it ends. A local declared with one of them comes into scope
there. The right side of a compound assignment does not write the assigned
local.
-/

namespace LuaBackend

def Ty.hasValues (t : Ty) : Bool := !(t.isUntyped || t.isKind .void)

namespace Expr

def designates : Expr → Bool
  | field .. | ident .. => true
  | _ => false

def targetVar (e : Expr) : Option Var :=
  match e.bare with
  | .local _ var => some var
  | _ => none

def writesTo (y : UInt32) : Expr → Bool
  | binary _ _ op lhs _ => op.isAssignment && lhs.targetVar.any (·.id = y)
  | unary _ _ op _ operand => op.isStep && operand.targetVar.any (·.id = y)
  | varDecl _ var _ => var.id = y
  | forIn _ var _ _ => var.id = y
  | tryCatch _ _ _ handlers => handlers.any (·.var.id = y)
  | _ => false

def avoids (y : UInt32) (e : Expr) : Bool := !e.search (writesTo y) (fun _ => false)

theorem avoids_iff (y : UInt32) (e : Expr) :
    e.avoids y = true ↔ e.writesTo y = false ∧ ∀ c ∈ e.children, c.avoids y = true := by
  simp only [avoids, Bool.not_eq_true', search_eq_false e]

/-- Used for its value, the node has one: it is no block, branch, switch or
try, or its type has values. -/
def valued (e : Expr) : Bool :=
  match e.bare with
  | block _ type exprs => exprs.isEmpty || type.hasValues
  | ite _ type .. | switch _ type .. | tryCatch _ type .. => type.hasValues
  | _ => true

mutual

def yields : Expr → Bool
  | paren _ _ inner => inner.yields
  | annot _ _ _ inner => inner.yields
  | block _ _ exprs => yieldsLast exprs
  | ite _ _ _ onTrue onFalse => yieldsPart onTrue && yieldsPart onFalse
  | switch _ _ _ cases default => yieldsCases cases && yieldsPart default
  | tryCatch _ _ body handlers => yieldsPart body && yieldsHandlers handlers
  | varDecl .. | loop .. | forIn .. => false
  | _ => true

def yieldsLast : List Expr → Bool
  | [] => false
  | [last] => last.yields
  | _ :: second :: rest => yieldsLast (second :: rest)

def yieldsPart : Option Expr → Bool
  | none => false
  | some e => e.yields

def yieldsCases : List (Case Expr) → Bool
  | [] => true
  | ⟨_, body⟩ :: rest => yieldsPart body && yieldsCases rest

def yieldsHandlers : List (Handler Expr) → Bool
  | [] => true
  | ⟨_, body⟩ :: rest => yieldsPart body && yieldsHandlers rest

end

end Expr

/-- What needs no statements has a value. -/
theorem Expr.valued_of_hoists_eq_false (e : Expr) (h : e.hoists = false) : e.valued = true := by
  fun_induction Expr.bare e with
  | case1 loc type inner ih => exact ih h
  | case2 loc type name inner ih => exact ih h
  | case3 e => cases e <;> simp_all [valued, hoists, Expr.bare]

def Scope.after (Γ : Scope) (e : Expr) : Scope :=
  match e.bare with
  | .varDecl _ var _ => Γ.bind var.id
  | _ => Γ

/-- A node leaves nothing out of scope. -/
theorem Scope.le_after {Γ : Scope} {e : Expr} {y : UInt32} (h : Γ y = true) :
    Γ.after e y = true := by
  unfold Scope.after
  cases e.bare with
  | varDecl => simp [Scope.bind, h]
  | _ => exact h

namespace Expr

mutual

/-- Normalization keeps the meaning of the tree, where `Γ` is in scope. -/
def fit (Γ : Scope) : Expr → Bool
  | omitted | const .. | typeRef .. | ident .. | brk .. | cont .. => true
  | .local _ var => Γ var.id
  | field _ _ ref receiver =>
    !ref.isForwarded && (ref.access ≠ .enumCtor || receiver.isNone) && fitOperand Γ receiver
  | index _ _ base position =>
    base.valued && fit Γ base && (position.valued && fit Γ position)
  | paren _ _ inner => fit Γ inner
  | annot _ _ _ inner => fit Γ inner
  | object _ _ fields => fitFields Γ fields
  | array _ _ elements => fitOperands Γ elements
  | call _ _ (field _ _ _ receiver) args => fitOperand Γ receiver && fitOperands Γ args
  | call _ _ callee args => callee.valued && fit Γ callee && fitOperands Γ args
  | new _ _ _ _ args => fitOperands Γ args
  | binary _ _ op lhs rhs =>
    fit Γ rhs &&
      match op with
      | .assign =>
        lhs.targetVar.any (fun v => !v.isTemp) && (!rhs.bare.isBlockLike || rhs.yields)
      | .compound _ =>
        lhs.targetVar.any (fun v => !v.isTemp && (Γ v.id && rhs.avoids v.id)) && rhs.valued
      | .and | .or => lhs.valued && fit Γ lhs && rhs.yields
      | .nullCoalesce => lhs.valued && fit Γ lhs
      | _ => lhs.valued && fit Γ lhs && rhs.valued
  | unary _ _ op _ operand =>
    if op.isStep then operand.targetVar.any (fun v => !v.isTemp && Γ v.id)
    else operand.valued && fit Γ operand
  | function .. => false
  | varDecl _ var init =>
    !var.isTemp && (fitPart Γ init &&
      init.all fun i => !i.bare.isBlockLike || (!Γ var.id && i.avoids var.id))
  | block _ _ exprs => fitSeq Γ exprs
  | forIn _ var iterator body =>
    !var.isTemp && (iterator.valued && fit Γ iterator && fitPart (Γ.bind var.id) body)
  | ite _ _ cond onTrue onFalse =>
    cond.valued && fit Γ cond && (fitPart Γ onTrue && fitPart Γ onFalse)
  | loop _ _ cond body => cond.valued && fit Γ cond && fitPart Γ body
  | switch _ _ subject cases default =>
    subject.valued && fit Γ subject && (fitCases Γ cases && fitPart Γ default)
  | ret _ value => fitOperand Γ value
  | throw _ value => value.valued && fit Γ value
  | cast _ _ _ inner => inner.valued && fit Γ inner
  | tryCatch _ _ body handlers => fitPart Γ body && fitHandlers Γ handlers
  | enumParam _ _ value _ _ => value.valued && fit Γ value
  | enumIndex _ value => value.valued && fit Γ value

def fitOperand (Γ : Scope) : Option Expr → Bool
  | none => true
  | some e => e.valued && fit Γ e

def fitOperands (Γ : Scope) : List Expr → Bool
  | [] => true
  | e :: rest => e.valued && fit Γ e && fitOperands Γ rest

def fitFields (Γ : Scope) : List (FieldInit Expr) → Bool
  | [] => true
  | ⟨_, value⟩ :: rest => value.valued && fit Γ value && fitFields Γ rest

def fitPart (Γ : Scope) : Option Expr → Bool
  | none => true
  | some e => fit Γ e

def fitSeq (Γ : Scope) : List Expr → Bool
  | [] => true
  | e :: rest => fit Γ e && fitSeq (Γ.after e) rest

def fitCases (Γ : Scope) : List (Case Expr) → Bool
  | [] => true
  | ⟨values, body⟩ :: rest => fitOperands Γ values && fitPart Γ body && fitCases Γ rest

def fitHandlers (Γ : Scope) : List (Handler Expr) → Bool
  | [] => true
  | ⟨var, body⟩ :: rest =>
    !var.isTemp && fitPart (Γ.bind var.id) body && fitHandlers Γ rest

end

end Expr

end LuaBackend
