import LuaBackend.Proofs.Emit.Basic
import LuaBackend.Proofs.Tree.Rebuild

/-!
# Emissions of trees

The emission of a tree knows the tree that it is an emission of.
-/

namespace LuaBackend.Emit

open Emission

theorem emitList_eq_map (es : List Expr) : emitList es = es.map emit := by
  induction es with
  | nil => rfl
  | cons e rest ih => rw [emitList, ih, List.map_cons]

theorem emitOption_eq_map (part : Option Expr) : emitOption part = part.map emit := by
  cases part <;> rfl

theorem emitFields_eq_map (fields : List (FieldInit Expr)) :
    emitFields fields = fields.map fun f => ⟨f.name, emit f.value⟩ := by
  induction fields with
  | nil => rfl
  | cons f rest ih => rw [emitFields, ih, List.map_cons]

theorem emitCases_eq_map (cases : List (Case Expr)) :
    emitCases cases = cases.map fun c => ⟨c.values.map emit, c.body.map emit⟩ := by
  induction cases with
  | nil => rfl
  | cons c rest ih => rw [emitCases, ih, List.map_cons, emitList_eq_map, emitOption_eq_map]

theorem emitHandlers_eq_map (handlers : List (Handler Expr)) :
    emitHandlers handlers = handlers.map fun h => ⟨h.var, h.body.map emit⟩ := by
  induction handlers with
  | nil => rfl
  | cons h rest ih => rw [emitHandlers, ih, List.map_cons, emitOption_eq_map]

theorem Emission.source_binary (loc : Loc) (type : Ty) (op : BinaryOp) (lhs rhs : Emission) :
    (binary loc type op lhs rhs).source = .binary loc type op lhs.source rhs.source := by
  cases op <;> rfl

theorem Emission.source_unary (loc : Loc) (type : Ty) (op : UnaryOp) (isPost : Bool) (e : Emission) :
    (unary loc type op isPost e).source = .unary loc type op isPost e.source := by
  cases op <;> rfl

/-- The emission of a node belongs to the node with the trees of its parts. -/
theorem source_emit_node {e : Expr} (h : e.isFunction = false) :
    (emit e).source = e.mapChildren fun c => (emit c).source := by
  cases e with
  | function => cases h
  | binary => exact source_binary ..
  | unary => exact source_unary ..
  | varDecl loc var part | ret loc part => cases part <;> rfl
  | _ => simp [emit, Expr.mapChildren, emitOption_eq_map, emitList_eq_map, emitFields_eq_map,
      emitCases_eq_map, emitHandlers_eq_map, Function.comp_def, field, index, paren, annot, object,
      array, call, new, Emission.cast, block, Emission.forIn, Emission.ite, loop, switch,
      Emission.throw, Emission.tryCatch, enumParam, enumIndex, const, ofValue, ofStmt, stmtOnly,
      ofCall, jump]

/-- The emission of a tree is an emission of that tree. -/
theorem source_emit (e : Expr) : (emit e).source = e := by
  induction e using Expr.induction_on_children with
  | step e ih =>
  cases h : e.isFunction with
  | false => exact (source_emit_node h).trans (Expr.mapChildren_eq_self ih)
  | true =>
    cases e with
    | function => rfl
    | _ => cases h

theorem map_source_emitOption (part : Option Expr) : (emitOption part).map source = part := by
  simp [emitOption_eq_map, Function.comp_def, source_emit]

theorem map_source_emitCases (cases : List (Case Expr)) : ((emitCases cases).map fun c =>
    (⟨c.values.map source, c.body.map source⟩ : Case Expr)) = cases := by
  simp [emitCases_eq_map, Function.comp_def, source_emit]

/-- Only an operator that stores has no rendering. -/
theorem rendering_ne_none {op : BinaryOp} (h : op.isMutating = false) (lhs rhs result : Ty) :
    Lua.rendering op lhs rhs result ≠ .none := by
  cases op with
  | assign | compound | nullCoalesce => cases h
  | add | mod =>
    simp only [Lua.rendering]
    split <;> simp
  | _ => simp [Lua.rendering]

theorem head?_emitList (args : List Expr) :
    ((emitList args).head?.bind fun e => e.source.stringConst?) =
      args.head?.bind Expr.stringConst? := by
  cases args with
  | nil => rfl
  | cons e => exact congrArg Expr.stringConst? (source_emit e)

theorem tail_emitList (args : List Expr) : (emitList args).tail = emitList args.tail := by
  cases args <;> rfl

/-- Through wrappers, a member is accessed on the same object. -/
theorem exists_receiver_of_bare {e receiver : Expr} {loc : Loc} {type : Ty} {ref : MemberRef}
    (h : e.bare = .field loc type ref (some receiver)) : ∃ act, (emit e).receiver = some act := by
  fun_induction Expr.bare e with
  | case1 loc type inner ih => exact ih h
  | case2 loc type name inner ih => exact ih h
  | case3 =>
    subst h
    exact ⟨_, rfl⟩

section

variable {e : Expr} {context context' : Context}

/-- A tree is written as the text of its block. -/
theorem statements_of_blockOf {code : Lua.Block} {label : UInt32}
    (h : blockOf e context.scope context.nextLabel = .ok code label) :
    statements e context =
      .ok (Lua.Stmt.texts context.layout code) { context with nextLabel := label } := by
  rw [statements_eq, run_bind_ok (inContext_of_ok h)]
  rfl

/-- A refusal leaves the counter where it was refused. -/
theorem statements_of_refusal {fault : Fault} {label : UInt32}
    (h : blockOf e context.scope context.nextLabel = .error fault label) :
    statements e context = .error fault { context with nextLabel := label } := by
  rw [statements_eq, run_bind_error (inContext_of_error h)]

/-- Where a tree is written, its text is that of its block. -/
theorem blockOf_of_statements {text : String}
    (h : statements e context = .ok text context') : ∃ code label,
      blockOf e context.scope context.nextLabel = .ok code label ∧
      text = Lua.Stmt.texts context.layout code := by
  cases hrun : blockOf e context.scope context.nextLabel with
  | ok code label =>
    rw [statements_of_blockOf hrun] at h
    cases h
    exact ⟨code, label, rfl, rfl⟩
  | error =>
    rw [statements_of_refusal hrun] at h
    cases h

end

end LuaBackend.Emit
