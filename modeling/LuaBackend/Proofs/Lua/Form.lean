import LuaBackend.Lua.Text

/-!
# Well-formed code

A tree of Lua code need not be a program: an object may be accessed that
Lua wants in parentheses, a statement may be no call, and a return may
stand before other statements. Code is `Formed` if none of this happens,
at any depth, and no part of it was given as text. What is a name, and
what can be stored into, are parameters.
-/

namespace LuaBackend.Lua

open Text List

variable {name : String}

def IsName (text : String) : Prop := isName text = true

def Dotted (N : String → Prop) (text : String) : Prop :=
  ∃ name names, (∀ n ∈ name :: names, N n) ∧ text = ".".intercalate (name :: names)

theorem dotted_name {N : String → Prop} (h : N name) : Dotted N name :=
  ⟨name, [], forall_mem_singleton.2 h, rfl⟩

theorem dotted_member {N : String → Prop} {object : String} (ho : N object) (hn : N name) :
    Dotted N (object ++ ("." ++ name)) :=
  ⟨object, [name], forall_mem_cons.2 ⟨ho, forall_mem_singleton.2 hn⟩, String.append_assoc.symm⟩

theorem isNamePart_of_isName (h : isName name = true) : ∀ c ∈ name.toList, isNamePart c = true := by
  unfold isName at h
  split at h
  · cases h
  · rename_i c cs hname
    have hparts : isNameStart c = true ∧ ∀ c ∈ cs, isNamePart c = true := by simpa using h
    rw [hname, forall_mem_cons, isNamePart, hparts.1, Bool.true_or]
    exact ⟨rfl, hparts.2⟩

/-- A name goes on with characters of names. -/
theorem isName_append {text : String} (h : isName name = true)
    (htext : ∀ c ∈ text.toList, isNamePart c = true) : isName (name ++ text) = true := by
  unfold isName at h ⊢
  rw [String.toList_append]
  cases hname : name.toList with
  | nil =>
    rw [hname] at h
    cases h
  | cons c cs =>
    rw [hname] at h
    obtain ⟨hstart, hparts⟩ := Bool.and_eq_true_iff.1 h
    have hall : (cs ++ text.toList).all isNamePart = true := by
      rw [all_append, hparts, all_eq_true.2 htext, Bool.and_self]
    rw [cons_append]
    exact Bool.and_eq_true_iff.2 ⟨hstart, hall⟩

theorem isName_intercalate {names : List String} (hne : names ≠ [])
    (h : ∀ n ∈ names, isName n = true) : isName ("_".intercalate names) = true := by
  induction names with
  | nil => exact absurd rfl hne
  | cons name rest ih =>
    obtain ⟨hname, hrest⟩ := forall_mem_cons.1 h
    cases rest with
    | nil => exact hname
    | cons =>
      have hmore := isNamePart_of_isName (ih (cons_ne_nil _ _) hrest)
      rw [String.intercalate_cons_cons, String.append_assoc]
      refine isName_append hname ?_
      rw [String.toList_append]
      exact forall_mem_append.2 ⟨forall_mem_singleton.2 rfl, hmore⟩

namespace Expr

def isCall : Expr → Bool
  | .call .. | .method .. | .callWithSelf .. | .block _ | .object _ | .array _ => true
  | _ => false

def isHead : Expr → Bool
  | .name _ | .paren _ | .member .. | .key .. | .index .. => true
  | e => e.isCall

theorem isHead_of_isCall {e : Expr} (h : e.isCall = true) : e.isHead = true := by
  cases e <;> first | rfl | exact h

def opens : Expr → Bool
  | .paren _ | .block _ => true
  | .float value => value.isNaN
  | .member first _ | .key first _ | .index first _ | .call first _ | .method first _ _
  | .callWithSelf first _ | .binary _ first _ => first.opens
  | _ => false

end Expr

def Stmt.isReturn : Stmt → Bool
  | .ret _ => true
  | _ => false

section Formed

variable (N : String → Prop) (S : Expr → Prop)

mutual

def Expr.Formed : Expr → Prop
  | .nil | .bool _ | .int _ | .float _ | .string _ => True
  | .name text => Dotted N text
  | .paren inner | .not inner | .neg inner => inner.Formed
  | .member object _ | .key object _ => object.isHead = true ∧ object.Formed
  | .index object position => (object.isHead = true ∧ object.Formed) ∧ position.Formed
  | .call callee args | .callWithSelf callee args =>
    (callee.isHead = true ∧ callee.Formed) ∧ Expr.AllFormed args
  | .method object name args =>
    (object.isHead = true ∧ object.Formed) ∧ isName name = true ∧ Expr.AllFormed args
  | .binary _ lhs rhs => lhs.Formed ∧ rhs.Formed
  | .function params body => (∀ p ∈ params, N p) ∧ Stmt.AllFormed body
  | .block body => Stmt.AllFormed body
  | .object fields => Expr.FieldsFormed fields
  | .array elements => Expr.AllFormed elements
  | .verbatim _ => False

def Expr.AllFormed : List Expr → Prop
  | [] => True
  | e :: rest => e.Formed ∧ Expr.AllFormed rest

def Expr.OptionFormed : Option Expr → Prop
  | none => True
  | some e => e.Formed

def Expr.FieldsFormed : List (FieldInit Expr) → Prop
  | [] => True
  | ⟨_, value⟩ :: rest => value.Formed ∧ Expr.FieldsFormed rest

def Stmt.Formed : Stmt → Prop
  | .brk | .goto _ | .label _ => True
  | .localVar name value => N name ∧ Expr.OptionFormed value
  | .ret value | .retInside value => Expr.OptionFormed value
  | .assign place value => S place ∧ place.Formed ∧ value.Formed
  | .call call => call.isCall = true ∧ call.Formed
  | .run call => call.isCall = true ∧ call.opens = false ∧ call.Formed
  | .test cond => cond.Formed
  | .default name value => N name ∧ value.Formed
  | .scope body | .protect body => Stmt.AllFormed body
  | .loopWhile cond body | .loopUntilNot body cond => cond.Formed ∧ Stmt.AllFormed body
  | .branches arms otherwise =>
    arms ≠ [] ∧ Stmt.ArmsFormed arms ∧ Stmt.OtherwiseFormed otherwise
  | .define .. => False

def Stmt.AllFormed : List Stmt → Prop
  | [] => True
  | s :: rest => s.Formed ∧ (s.isReturn = true → rest = []) ∧ Stmt.AllFormed rest

def Stmt.ArmsFormed : List (Arm Expr Stmt) → Prop
  | [] => True
  | ⟨cond, body⟩ :: rest => (cond.Formed ∧ Stmt.AllFormed body) ∧ Stmt.ArmsFormed rest

def Stmt.OtherwiseFormed : Option (List Stmt) → Prop
  | none => True
  | some body => Stmt.AllFormed body

end

end Formed

def Unreturning (code : Block) : Prop := ∀ s ∈ code, s.isReturn = false

section

variable {N : String → Prop} {S : Expr → Prop}

theorem Stmt.allFormed_singleton {s : Stmt} (h : s.Formed N S) : Stmt.AllFormed N S [s] :=
  ⟨h, fun _ => rfl, trivial⟩

/-- More may follow statements of which none is a return. -/
theorem Stmt.AllFormed.append {code code' : Block} (h : Stmt.AllFormed N S code)
    (hreturns : Unreturning code) (h' : Stmt.AllFormed N S code') :
    Stmt.AllFormed N S (code ++ code') := by
  induction code with
  | nil => exact h'
  | cons s rest ih =>
    obtain ⟨hs, hrest⟩ := forall_mem_cons.1 hreturns
    exact ⟨h.1, fun hreturn => absurd (hs.symm.trans hreturn) Bool.false_ne_true, ih h.2.2 hrest⟩

theorem Stmt.ArmsFormed.append {arms arms' : List (Arm Expr Stmt)} (h : Stmt.ArmsFormed N S arms)
    (h' : Stmt.ArmsFormed N S arms') : Stmt.ArmsFormed N S (arms ++ arms') := by
  induction arms with
  | nil => exact h'
  | cons arm rest ih => exact ⟨h.1, ih h.2⟩

end

end LuaBackend.Lua
