import LuaBackend.Proofs.Tree.NormalForm

/-!
# Induction over the nodes of a tree

Every node directly below another is smaller, so what passes from the
nodes directly below a node to the node itself holds of every tree.

The trees that front ends hand over name no variable made by the backend
(`TempFree`).
-/

namespace LuaBackend.Expr

open List

variable {c e : Expr}

/-- A part of a node is smaller than the option that holds it. -/
theorem sizeOf_part {part : Option Expr} (h : c ∈ part.toList) : sizeOf c < sizeOf part := by
  cases part with
  | none => exact nomatch h
  | some e =>
    obtain rfl : c = e := mem_singleton.1 h
    rw [Option.some.sizeOf_spec]
    omega

theorem sizeOf_fieldValue {fields : List (FieldInit Expr)} (h : c ∈ fields.map FieldInit.value) :
    sizeOf c < sizeOf fields := by
  obtain ⟨⟨name, value⟩, hf, rfl⟩ := mem_map.1 h
  have hlist := sizeOf_lt_of_mem hf
  rw [FieldInit.mk.sizeOf_spec] at hlist
  dsimp only
  omega

theorem sizeOf_default {params : List (Param Expr)} (h : c ∈ params.filterMap Param.default) :
    sizeOf c < sizeOf params := by
  obtain ⟨⟨var, optional, default⟩, hp, hc⟩ := mem_filterMap.1 h
  have hlist := sizeOf_lt_of_mem hp
  have hpart : sizeOf c < sizeOf default := sizeOf_part (Option.mem_toList.2 hc)
  rw [Param.mk.sizeOf_spec] at hlist
  omega

/-- The values and bodies of cases are smaller than the cases. -/
theorem sizeOf_casePart {cases : List (Case Expr)}
    (h : c ∈ cases.flatMap fun k => k.values ++ k.body.toList) : sizeOf c < sizeOf cases := by
  obtain ⟨⟨values, body⟩, hk, hc⟩ := mem_flatMap.1 h
  have hlist := sizeOf_lt_of_mem hk
  rw [Case.mk.sizeOf_spec] at hlist
  rcases mem_append.1 hc with hv | hb
  · have hvalue : sizeOf c < sizeOf values := sizeOf_lt_of_mem hv
    omega
  · have hbody : sizeOf c < sizeOf body := sizeOf_part hb
    omega

theorem sizeOf_handlerBody {handlers : List (Handler Expr)}
    (h : c ∈ handlers.filterMap Handler.body) : sizeOf c < sizeOf handlers := by
  obtain ⟨⟨var, body⟩, hk, hc⟩ := mem_filterMap.1 h
  have hlist := sizeOf_lt_of_mem hk
  have hpart : sizeOf c < sizeOf body := sizeOf_part (Option.mem_toList.2 hc)
  rw [Handler.mk.sizeOf_spec] at hlist
  omega

/-- A node directly below another is smaller. -/
theorem sizeOf_child (h : c ∈ e.children) : sizeOf c < sizeOf e := by
  have hpart := @sizeOf_part c
  have hlist {es : List Expr} (hc : c ∈ es) := sizeOf_lt_of_mem hc
  have hfields := @sizeOf_fieldValue c
  have hparams := @sizeOf_default c
  have hcases := @sizeOf_casePart c
  have hhandlers := @sizeOf_handlerBody c
  cases e with
  | omitted | const | «local» | typeRef | brk | cont | ident => exact nomatch h
  | _ =>
    simp only [children, mem_cons, mem_append, not_mem_nil, or_false] at h
    simp
    grind

/-- What passes from the nodes directly below a node to the node itself
holds of every tree. -/
theorem induction_on_children {P : Expr → Prop}
    (step : ∀ e : Expr, (∀ c ∈ e.children, P c) → P e) (e : Expr) : P e :=
  (measure fun e : Expr => sizeOf e).wf.induction e fun e ih =>
    step e fun c hc => ih c (sizeOf_child hc)

/-- The second node is the first, or below it. -/
inductive Holds : Expr → Expr → Prop
  | self {e : Expr} : Holds e e
  | inside {e c n : Expr} (child : c ∈ e.children) (holds : Holds c n) : Holds e n

/-- What is below a node is below what the node is below. -/
theorem Holds.trans {m n : Expr} (h : Holds e m) (h' : Holds m n) : Holds e n := by
  induction h with
  | self => exact h'
  | inside hc _ ih => exact .inside hc (ih h')

/-- The variables that a node itself names: the local that it reads, or
those that it declares. -/
def vars : Expr → List Var
  | .local _ var => [var]
  | function _ _ params _ _ => params.map Param.var
  | varDecl _ var _ => [var]
  | forIn _ var _ _ => [var]
  | tryCatch _ _ _ handlers => handlers.map Handler.var
  | _ => []

def namesTemp (e : Expr) : Bool := e.vars.any Var.isTemp

def TempFree (e : Expr) : Prop := e.search namesTemp (fun _ => false) = false

instance (e : Expr) : Decidable e.TempFree := inferInstanceAs (Decidable (_ = false))

/-- A tree names no temporary if its node and the nodes below it name none. -/
theorem tempFree_iff (e : Expr) :
    e.TempFree ↔ (∀ v ∈ e.vars, v.isTemp = false) ∧ ∀ c ∈ e.children, c.TempFree := by
  rw [TempFree, search_eq_false, namesTemp, any_eq_false]
  simp only [Bool.not_eq_true, TempFree]

theorem TempFree.vars (h : e.TempFree) : ∀ v ∈ e.vars, v.isTemp = false :=
  ((tempFree_iff e).1 h).1

theorem TempFree.child (h : e.TempFree) (hc : c ∈ e.children) : c.TempFree :=
  ((tempFree_iff e).1 h).2 c hc

/-- Taking wrappers off brings in no temporary. -/
theorem TempFree.bare (h : e.TempFree) : e.bare.TempFree := by
  fun_induction Expr.bare e with
  | case1 loc type inner ih => exact ih (h.child (.head _))
  | case2 loc type name inner ih => exact ih (h.child (.head _))
  | case3 => exact h

end LuaBackend.Expr
