import LuaBackend.Proofs.Emit.Source
import LuaBackend.Proofs.Tree.Scope
import Mathlib.Algebra.Ring.Nat

/-!
# What writing takes

The misuses that any tree may be refused for (`Construct.isMisuse`), the
labels that a tree takes at most (`demand`), the placeholders in given
code, and continues that find a label.
-/

namespace LuaBackend.Emit

/-- An identifier that names nothing, an intrinsic, `super`, an access or a
jump that is misused. -/
def Construct.isMisuse : Construct → Bool
  | .identifier _ => true
  | .codeWithoutText | .globalWithoutName | .hashArguments | .callWithoutFunction => true
  | .bareSuper | .superWithoutBase | .superCallOutsideCtor | .superCallWithoutBase => true
  | .staticWithoutOwner | .memberWithoutReceiver => true
  | .breakOutsideLoop | .continueOutsideLoop => true
  | .statementInValue _ | .nullCoalesceStatement | .methodWithoutFunction _ => false

def codeText? (callee : Expr) (args : List Expr) : Option String :=
  match callee.bare with
  | .ident _ _ name => if name = "__lua__" then args.head?.bind Expr.stringConst? else none
  | _ => none

def codeDemand (each : List Nat) : List CodePiece → Nat
  | [] => 0
  | .arg position :: rest => each.getD position 0 + codeDemand each rest
  | .char _ :: rest | .overflow :: rest => codeDemand each rest

/-- The labels for the arguments of a call. In given code an argument is
written as often as its placeholder. -/
def argumentDemand (text : Option String) (each : List Nat) : Nat :=
  match text with
  | none => each.sum
  | some text => codeDemand each (codePieces each.length 0 text.toList)

def loopDemand (body : Option Expr) : Nat := if body.any Expr.continuesLoop then 1 else 0

mutual

/-- A bound on the labels that writing takes. Place and operand of an
operation that stores are written twice, and the subject of a switch for
each value. -/
def demand : Expr → Nat
  | .omitted | .const .. | .local .. | .typeRef .. | .brk _ | .cont _ | .ident .. => 0
  | .field _ _ _ receiver => demandOption receiver
  | .index _ _ base position => demand base + demand position
  | .paren _ _ inner | .annot _ _ _ inner | .cast _ _ _ inner => demand inner
  | .enumParam _ _ value _ _ | .enumIndex _ value | .throw _ value => demand value
  | .object _ _ fields => demandFields fields
  | .array _ _ es | .new _ _ _ _ es | .block _ _ es => (demandEach es).sum
  | .call _ _ callee args =>
    demand callee + argumentDemand (codeText? callee args) (demandEach args)
  | .binary _ _ op lhs rhs =>
    match op with
    | .compound _ => demand lhs + (demand lhs + demand rhs)
    | _ => demand lhs + demand rhs
  | .unary _ _ op _ operand =>
    if op.isStep then demand operand + demand operand else demand operand
  | .function _ _ params _ body => demandParams params + demandOption body
  | .varDecl _ _ value | .ret _ value => demandOption value
  | .forIn _ _ iterator body => loopDemand body + (demand iterator + demandOption body)
  | .ite _ _ cond onTrue onFalse => demand cond + (demandOption onTrue + demandOption onFalse)
  | .loop _ _ cond body => loopDemand body + (demand cond + demandOption body)
  | .switch _ _ subject cases default => demandCases (demand subject) cases + demandOption default
  | .tryCatch _ _ body handlers => demandOption body + demandHandlers handlers

def demandEach : List Expr → List Nat
  | [] => []
  | e :: rest => demand e :: demandEach rest

def demandOption : Option Expr → Nat
  | none => 0
  | some e => demand e

def demandFields : List (FieldInit Expr) → Nat
  | [] => 0
  | ⟨_, value⟩ :: rest => demand value + demandFields rest

def demandParams : List (Param Expr) → Nat
  | [] => 0
  | ⟨_, _, default⟩ :: rest => demandOption default + demandParams rest

def demandCases (subject : Nat) : List (Case Expr) → Nat
  | [] => 0
  | ⟨values, body⟩ :: rest =>
    ((demandEach values).map (subject + ·)).sum + (demandOption body + demandCases subject rest)

def demandHandlers : List (Handler Expr) → Nat
  | [] => 0
  | [⟨_, body⟩] => demandOption body
  | _ :: h :: rest => demandHandlers (h :: rest)

end

def placeholdersFit : List Char → Bool
  | [] => true
  | c :: rest =>
    (c ≠ '\x7b' || (bracedDigits? rest).all (digitsValue · < UInt64.size)) && placeholdersFit rest

theorem overflow_notMem_codePieces {args : Nat} {text : List Char}
    (h : placeholdersFit text = true) (skip : Nat) :
    CodePiece.overflow ∉ codePieces args skip text := by
  induction text generalizing skip with
  | nil => exact nofun
  | cons c rest ih =>
    rw [placeholdersFit, Bool.and_eq_true] at h
    cases skip with
    | succ skip => exact ih h.2 skip
    | zero =>
      have hchar : CodePiece.overflow ∉ CodePiece.char c :: codePieces args 0 rest :=
        fun hmem => ih h.2 0 ((List.mem_cons.1 hmem).resolve_left nofun)
      rw [codePieces]
      split
      · rename_i hbrace
        split
        · exact hchar
        · rename_i digits hdigits
          have hfits : ¬UInt64.size ≤ digitsValue digits := by
            have := h.1
            rw [hdigits] at this
            simpa [hbrace] using this
          rw [if_neg hfits]
          dsimp only
          split
          · exact fun hmem => ih h.2 _ ((List.mem_cons.1 hmem).resolve_left nofun)
          · exact hchar
      · exact hchar

def Quiet (scope : Scope) (e : Expr) : Prop :=
  scope.control.head? = some (.loop 0) → e.continuesLoop = false

theorem quiet_of_head {scope : Scope} (h : scope.control.head? ≠ some (.loop 0)) (e : Expr) :
    Quiet scope e := fun hhead => absurd hhead h

theorem Quiet.child {scope : Scope} {c e : Expr} (h : Quiet scope e) (hc : c ∈ e.children)
    (hstop : (e.isFunction || e.isLoop) = false) : Quiet scope c := by
  intro hhead
  refine Bool.eq_false_iff.2 fun hcont => ?_
  have hfound : e.continuesLoop = true := Expr.search_of_child hc hstop hcont
  exact nomatch hfound.symm.trans (h hhead)

end LuaBackend.Emit
