import LuaBackend.Proofs.Emit.Operators
import LuaBackend.Proofs.Emit.Results
import LuaBackend.Proofs.Lua.Form
import LuaBackend.Proofs.Tree.Words

/-!
# The form of written code

Written code is well formed if the words of the tree are names for the
reader and what it stores into can be stored into. Here is what it is for
a word to be spelled as a name, and for code to be well formed where more
statements may follow: a return may not come last there.
-/

namespace LuaBackend

def Expr.stored? : Expr → Option Expr
  | .binary _ _ op lhs _ => if op.isAssignment then some lhs else none
  | .unary _ _ op _ operand => if op.isStep then some operand else none
  | _ => none

def Word.isReserved : Word → Bool
  | .type path => Lua.reserved.contains path.global
  | _ => false

namespace Emit

open Emission

variable {N : String → Prop} {S : Lua.Expr → Prop}
variable {followed : Bool} {name : String} {op : BinaryOp}
variable {w : Word}

def generatedNames : List String :=
  ["_hx_bit", "_hx_tab_array", "_hx_o", "_hx_bind", "_hx_new", "_hx_cast", "_hx_hash",
    Lua.statusName, Lua.resultName, doneMark, breakMark, continueMark, iteratorName, Lua.discard]

def generatedMembers : List String :=
  ["fmod", "band", "bor", "bxor", "lshift", "arshift", "rshift", "bnot", "prototype", "new", "super"]

def broughtNames : List String :=
  generatedNames ++ (Lua.runtimeGlobals ++ "self" :: generatedMembers)

/-- Generated code uses no reserved word as a name. -/
theorem isFreeName_of_mem_broughtNames : ∀ name ∈ broughtNames, Lua.IsFreeName name := by decide

def SpelledBy (N : String → Prop) : Word → Prop
  | .var v => N (Lua.localName v)
  | .type path => N path.global
  | .ident name => name ≠ "__lua__" ∧ name ≠ "__global__"

/-- Plain words are written as names. -/
theorem spelledBy_isName (h : w.isPlain = true) : SpelledBy Lua.IsName w := by
  cases w with
  | var => exact (isFreeName_localName h).1
  | type =>
    refine Lua.isName_intercalate (List.append_ne_nil_of_right_ne_nil _ (List.cons_ne_nil _ _)) ?_
    exact List.all_eq_true.1 h
  | ident name =>
    have hname : name ≠ "__lua__" ∧ name ≠ "__global__" := by simpa [Word.isPlain] using h
    exact hname

/-- Plain words that are not reserved are free names. -/
theorem spelledBy_isFreeName (h : w.isPlain = true) (hfree : w.isReserved = false) :
    SpelledBy Lua.IsFreeName w := by
  have hname := spelledBy_isName h
  cases w with
  | var => exact isFreeName_localName h
  | type => exact ⟨hname, hfree⟩
  | ident => exact hname

def Based (N : String → Prop) (scope : Scope) : Prop := scope.base.isEmpty = false → N scope.base

/-- Helpers are reached through names. -/
theorem dotted_helper (hN : ∀ name ∈ broughtNames, N name) {lhs rhs result : Ty}
    (h : Lua.rendering op lhs rhs result = .helper name) : Lua.Dotted N name := by
  have hname : name ∈ ["math.fmod", "_hx_bit.band", "_hx_bit.bor", "_hx_bit.bxor",
      "_hx_bit.lshift", "_hx_bit.arshift", "_hx_bit.rshift"] := by
    unfold Lua.rendering at h
    grind
  have hparts : ∀ name ∈ ["math.fmod", "_hx_bit.band", "_hx_bit.bor", "_hx_bit.bxor",
      "_hx_bit.lshift", "_hx_bit.arshift", "_hx_bit.rshift"],
      ∃ p ∈ [("math", "fmod"), ("_hx_bit", "band"), ("_hx_bit", "bor"), ("_hx_bit", "bxor"),
        ("_hx_bit", "lshift"), ("_hx_bit", "arshift"), ("_hx_bit", "rshift")],
        name = p.1 ++ ("." ++ p.2) ∧ p.1 ∈ broughtNames ∧ p.2 ∈ broughtNames := by decide
  obtain ⟨p, -, rfl, hobject, hmember⟩ := hparts name hname
  exact Lua.dotted_member (hN _ hobject) (hN _ hmember)

def Sequel (N : String → Prop) (S : Lua.Expr → Prop) (followed : Bool) (code : Lua.Block) : Prop :=
  Lua.Stmt.AllFormed N S code ∧ (followed = true → Lua.Unreturning code)

def ElseTail.Formed (N : String → Prop) (S : Lua.Expr → Prop) (tail : ElseTail) : Prop :=
  Lua.Stmt.ArmsFormed N S tail.arms ∧ Lua.Stmt.OtherwiseFormed N S tail.otherwise

theorem sequel_singleton {s : Lua.Stmt} (h : s.Formed N S) (hs : s.isReturn = false) :
    Sequel N S followed [s] :=
  ⟨Lua.Stmt.allFormed_singleton h, fun _ => List.forall_mem_singleton.2 hs⟩

theorem sequel_nil : Sequel N S followed [] := ⟨trivial, fun _ => nofun⟩

theorem Sequel.append {code code' : Lua.Block} (h : Sequel N S true code)
    (h' : Sequel N S followed code') : Sequel N S followed (code ++ code') :=
  ⟨h.1.append (h.2 rfl) h'.1, fun hf => List.forall_mem_append.2 ⟨h.2 rfl, h'.2 hf⟩⟩

/-- A return is written as one only where it is the last statement. -/
theorem sequel_returnStmt {last : Bool} {value : Option Lua.Expr}
    (h : Lua.Expr.OptionFormed N S value) : Sequel N S (!last) [returnStmt last value] := by
  cases last with
  | true => exact ⟨Lua.Stmt.allFormed_singleton h, fun hf => absurd hf Bool.false_ne_true⟩
  | false => exact sequel_singleton h rfl

end Emit

end LuaBackend
