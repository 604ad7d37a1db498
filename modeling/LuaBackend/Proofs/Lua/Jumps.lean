import LuaBackend.Lua.Syntax
import Mathlib.Data.List.Nodup

/-!
# Jumps in code

Code is made of Lua functions: the code as a whole, and in it function
literals, blocks that are called on the spot, protected bodies and
definitions. A jump cannot leave its function. `outline` keeps of the code
of one function its jumps, labels and loops. The code is `Routed` if its
labels are distinct and every jump goes to the label at the end of the
innermost loop around it. How loops and jumps nest is its `nest`.
-/

open List

namespace LuaBackend.Lua

section Functions

variable (P : Bool → Block → Prop)

mutual

/-- Every Lua function in it has a body with `P`, which is told whether it
is called on the spot. -/
def Expr.Functions : Expr → Prop
  | .nil | .bool _ | .int _ | .float _ | .string _ | .name _ => True
  | .paren inner | .not inner | .neg inner => inner.Functions
  | .member object _ | .key object _ => object.Functions
  | .index object position => object.Functions ∧ position.Functions
  | .call callee args | .callWithSelf callee args => callee.Functions ∧ Expr.AllFunctions args
  | .method object _ args => object.Functions ∧ Expr.AllFunctions args
  | .binary _ lhs rhs => lhs.Functions ∧ rhs.Functions
  | .function _ body => P false body ∧ Stmt.AllFunctions body
  | .block body => P true body ∧ Stmt.AllFunctions body
  | .object fields => Expr.FieldsFunctions fields
  | .array elements => Expr.AllFunctions elements
  | .verbatim pieces => Expr.PiecesFunctions pieces

def Expr.AllFunctions : List Expr → Prop
  | [] => True
  | e :: rest => e.Functions ∧ Expr.AllFunctions rest

def Expr.OptionFunctions : Option Expr → Prop
  | none => True
  | some e => e.Functions

def Expr.FieldsFunctions : List (FieldInit Expr) → Prop
  | [] => True
  | ⟨_, value⟩ :: rest => value.Functions ∧ Expr.FieldsFunctions rest

def Expr.PiecesFunctions : List (Piece Expr) → Prop
  | [] => True
  | .text _ :: rest => Expr.PiecesFunctions rest
  | .code e :: rest => e.Functions ∧ Expr.PiecesFunctions rest

/-- Every Lua function in it has a body with `P`. -/
def Stmt.Functions : Stmt → Prop
  | .brk | .goto _ | .label _ => True
  | .localVar _ value | .ret value | .retInside value => Expr.OptionFunctions value
  | .assign place value => place.Functions ∧ value.Functions
  | .call value | .run value | .test value | .default _ value => value.Functions
  | .scope body => Stmt.AllFunctions body
  | .protect body | .define _ _ body => P false body ∧ Stmt.AllFunctions body
  | .loopWhile cond body | .loopUntilNot body cond => cond.Functions ∧ Stmt.AllFunctions body
  | .branches arms otherwise => Stmt.ArmsFunctions arms ∧ Stmt.OtherwiseFunctions otherwise

def Stmt.AllFunctions : List Stmt → Prop
  | [] => True
  | s :: rest => s.Functions ∧ Stmt.AllFunctions rest

def Stmt.ArmsFunctions : List (Arm Expr Stmt) → Prop
  | [] => True
  | ⟨cond, body⟩ :: rest => (cond.Functions ∧ Stmt.AllFunctions body) ∧ Stmt.ArmsFunctions rest

def Stmt.OtherwiseFunctions : Option (List Stmt) → Prop
  | none => True
  | some body => Stmt.AllFunctions body

end

variable {P}

theorem Stmt.AllFunctions.append {code code' : Block} (h : Stmt.AllFunctions P code)
    (h' : Stmt.AllFunctions P code') : Stmt.AllFunctions P (code ++ code') := by
  induction code with
  | nil => exact h'
  | cons s rest ih => exact ⟨h.1, ih h.2⟩

theorem Stmt.ArmsFunctions.append {arms arms' : List (Arm Expr Stmt)}
    (h : Stmt.ArmsFunctions P arms) (h' : Stmt.ArmsFunctions P arms') :
    Stmt.ArmsFunctions P (arms ++ arms') := by
  induction arms with
  | nil => exact h'
  | cons arm rest ih => exact ⟨h.1, ih h.2⟩

end Functions

/-! ## Outlines -/

/-- What matters for jumps in the code of one function. -/
inductive Outline where
  | jump (label : UInt32)
  | label (label : UInt32)
  /-- A loop, with the label that its body ends with. -/
  | loop (ends : Option UInt32) (inner : List Outline)

def endLabel (body : Block) : Option UInt32 :=
  match body.getLast? with
  | some (.label k) => some k
  | _ => none

mutual

def Stmt.outline : Stmt → List Outline
  | .goto k => [.jump k]
  | .label k => [.label k]
  | .scope body => Stmt.outlineAll body
  | .loopWhile _ body | .loopUntilNot body _ => [.loop (endLabel body) (Stmt.outlineAll body)]
  | .branches arms otherwise => Stmt.outlineArms arms ++ Stmt.outlineOtherwise otherwise
  | _ => []

def Stmt.outlineAll : List Stmt → List Outline
  | [] => []
  | s :: rest => s.outline ++ Stmt.outlineAll rest

def Stmt.outlineArms : List (Arm Expr Stmt) → List Outline
  | [] => []
  | ⟨_, body⟩ :: rest => Stmt.outlineAll body ++ Stmt.outlineArms rest

def Stmt.outlineOtherwise : Option (List Stmt) → List Outline
  | none => []
  | some body => Stmt.outlineAll body

end

/-- The outline of code is that of its parts. -/
theorem Stmt.outlineAll_append (code code' : Block) :
    Stmt.outlineAll (code ++ code') = Stmt.outlineAll code ++ Stmt.outlineAll code' := by
  induction code with
  | nil => rfl
  | cons s rest ih => rw [cons_append, outlineAll, outlineAll, ih, append_assoc]

theorem Stmt.outlineArms_append (arms arms' : List (Arm Expr Stmt)) :
    Stmt.outlineArms (arms ++ arms') = Stmt.outlineArms arms ++ Stmt.outlineArms arms' := by
  induction arms with
  | nil => rfl
  | cons arm rest ih => rw [cons_append, outlineArms, outlineArms, ih, append_assoc]

/-- How loops and jumps nest. -/
inductive Nest where
  | jump
  | loop (inner : List Nest)

namespace Outline

mutual

def labels : Outline → List UInt32
  | jump _ => []
  | label k => [k]
  | loop _ inner => labelsAll inner

def labelsAll : List Outline → List UInt32
  | [] => []
  | o :: rest => o.labels ++ labelsAll rest

end

mutual

/-- Every jump goes to the label that the innermost loop around it ends
with; `home` is that label for the whole. -/
def Homed (home : Option UInt32) : Outline → Prop
  | jump k => home = some k
  | label _ => True
  | loop ends inner => AllHomed ends inner

def AllHomed (home : Option UInt32) : List Outline → Prop
  | [] => True
  | o :: rest => o.Homed home ∧ AllHomed home rest

end

mutual

def nest : Outline → List Nest
  | jump _ => [.jump]
  | label _ => []
  | loop _ inner => [.loop (nestAll inner)]

def nestAll : List Outline → List Nest
  | [] => []
  | o :: rest => o.nest ++ nestAll rest

end

variable {os os' : List Outline} {home : Option UInt32}

theorem labelsAll_append : labelsAll (os ++ os') = labelsAll os ++ labelsAll os' := by
  induction os with
  | nil => rfl
  | cons o rest ih => rw [cons_append, labelsAll, labelsAll, ih, append_assoc]

theorem nestAll_append : nestAll (os ++ os') = nestAll os ++ nestAll os' := by
  induction os with
  | nil => rfl
  | cons o rest ih => rw [cons_append, nestAll, nestAll, ih, append_assoc]

theorem AllHomed.append (h : AllHomed home os) (h' : AllHomed home os') :
    AllHomed home (os ++ os') := by
  induction os with
  | nil => exact h'
  | cons o rest ih => exact ⟨h.1, ih h.2⟩

/-- Where nothing jumps home, home may be anywhere. -/
theorem AllHomed.of_none (h : AllHomed none os) : AllHomed home os := by
  induction os with
  | nil => trivial
  | cons o rest ih =>
    refine ⟨?_, ih h.2⟩
    cases o with
    | jump k => exact absurd h.1 (Option.some_ne_none k).symm
    | label => trivial
    | loop => exact h.1

end Outline

/-- Labels are distinct, jumps go to the label at the end of the innermost
loop around them, and loops and jumps nest as given. -/
structure Routed (nest : List Nest) (body : Block) : Prop where
  labels : (Outline.labelsAll (Stmt.outlineAll body)).Nodup
  homed : Outline.AllHomed none (Stmt.outlineAll body)
  nest : Outline.nestAll (Stmt.outlineAll body) = nest

/-- The outline keeps to the rules, with labels from `lo` up to `hi`. -/
structure Laid (home : Option UInt32) (nest : List Nest) (lo hi : Nat) (os : List Outline) :
    Prop where
  labels : (Outline.labelsAll os).Nodup
  range : ∀ label ∈ Outline.labelsAll os, lo ≤ label.toNat ∧ label.toNat < hi
  homed : Outline.AllHomed home os
  nest : Outline.nestAll os = nest

namespace Laid

variable {home : Option UInt32} {ns ns' : List Nest} {lo mid hi : Nat} {os os' : List Outline}

theorem nil : Laid home [] lo hi [] := ⟨nodup_nil, nofun, trivial, rfl⟩

theorem jump {label : UInt32} (h : home = some label) :
    Laid home [.jump] lo hi [.jump label] := ⟨nodup_nil, nofun, ⟨h, trivial⟩, rfl⟩

theorem widen {lo' hi' : Nat} (h : Laid home ns lo hi os) (hlo : lo' ≤ lo) (hhi : hi ≤ hi') :
    Laid home ns lo' hi' os := by
  refine ⟨h.labels, fun label hl => ?_, h.homed, h.nest⟩
  have hrange := h.range label hl
  exact ⟨by omega, by omega⟩

/-- What is written later has later labels. -/
theorem append (h : Laid home ns lo mid os) (h' : Laid home ns' mid hi os') (hlo : lo ≤ mid)
    (hhi : mid ≤ hi) : Laid home (ns ++ ns') lo hi (os ++ os') := by
  refine ⟨?_, ?_, h.homed.append h'.homed, ?_⟩
  · rw [Outline.labelsAll_append]
    refine nodup_append.2 ⟨h.labels, h'.labels, ?_⟩
    rintro label hl label' hl' rfl
    have hbefore := (h.range label hl).2
    have hafter := (h'.range label hl').1
    omega
  · rw [Outline.labelsAll_append, forall_mem_append]
    exact ⟨(h.widen (Nat.le_refl _) hhi).range, (h'.widen hlo (Nat.le_refl _)).range⟩
  · rw [Outline.nestAll_append, h.nest, h'.nest]

/-- A loop in which nothing jumps to its end. -/
theorem plainLoop {ends : Option UInt32} (h : Laid none ns lo hi os) :
    Laid home [.loop ns] lo hi [.loop ends os] := by
  refine ⟨?_, ?_, ⟨h.homed.of_none, trivial⟩, ?_⟩
  · rw [Outline.labelsAll, Outline.labels, Outline.labelsAll, append_nil]
    exact h.labels
  · rw [Outline.labelsAll, Outline.labels, Outline.labelsAll, append_nil]
    exact h.range
  · rw [Outline.nestAll, Outline.nest, Outline.nestAll, h.nest]
    rfl

/-- A loop whose body ends with a label older than those in it. -/
theorem labelledLoop {label : UInt32} (h : Laid (some label) ns (label.toNat + 1) hi os)
    (hhi : label.toNat < hi) :
    Laid home [.loop ns] label.toNat hi [.loop (some label) (os ++ [.label label])] := by
  have hlabels : Outline.labelsAll [.loop (some label) (os ++ [.label label])] =
      Outline.labelsAll os ++ [label] := by
    rw [Outline.labelsAll, Outline.labels, Outline.labelsAll, append_nil, Outline.labelsAll_append]
    rfl
  refine ⟨?_, ?_, ⟨h.homed.append ⟨trivial, trivial⟩, trivial⟩, ?_⟩
  · rw [hlabels]
    refine nodup_append.2 ⟨h.labels, nodup_singleton _, ?_⟩
    rintro l hl l' hl' rfl
    have hlater := (h.range l hl).1
    rw [mem_singleton.1 hl'] at hlater
    omega
  · rw [hlabels, forall_mem_append, forall_mem_singleton]
    exact ⟨(h.widen (Nat.le_succ _) (Nat.le_refl _)).range, Nat.le_refl _, hhi⟩
  · rw [Outline.nestAll, Outline.nest, Outline.nestAll, Outline.nestAll_append, h.nest]
    simp [Outline.nestAll, Outline.nest]

/-- The body of a function has no home outside. -/
theorem routed {body : Block} (h : Laid none ns lo hi (Stmt.outlineAll body)) : Routed ns body :=
  ⟨h.labels, h.homed, h.nest⟩

end Laid

end LuaBackend.Lua
