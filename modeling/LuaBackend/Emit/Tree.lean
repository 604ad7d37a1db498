import LuaBackend.Emit.Node

/-!
# Writing trees

`emit` gives the emission of a tree, made from the emissions of its
parts.
-/

namespace LuaBackend.Emit

mutual

/-- The emission of a tree. -/
def emit : Expr → Emission
  | .omitted => .ofStmt .omitted (return .nil) fun _ => return []
  | .const loc type value => .const loc type value
  | .local loc var => .ofValue (.local loc var) (return .name (Lua.localName var))
  | .field loc type ref receiver => .field loc type ref (emitOption receiver)
  | .index loc type base position => .index loc type (emit base) (emit position)
  | .paren loc type inner => .paren loc type (emit inner)
  | .annot loc type name inner => .annot loc type name (emit inner)
  | .object loc type fields => .object loc type (emitFields fields)
  | .array loc type elements => .array loc type (emitList elements)
  | .typeRef loc type path => .ofValue (.typeRef loc type path) (return .name path.global)
  | .call loc type callee args => .call loc type (emit callee) (emitList args)
  | .new loc type cls ctorType args => .new loc type cls ctorType (emitList args)
  | .binary loc type op lhs rhs => .binary loc type op (emit lhs) (emit rhs)
  | .unary loc type op isPost operand => .unary loc type op isPost (emit operand)
  | e@(.function _ _ params _ body) => .function e (emitParams params) (emitOption body)
  | .varDecl loc var init => .varDecl loc var (emitOption init)
  | .block loc type exprs => .block loc type (emitList exprs)
  | .forIn loc var iterator body => .forIn loc var (emit iterator) (emitOption body)
  | .ite loc type cond onTrue onFalse =>
    .ite loc type (emit cond) (emitOption onTrue) (emitOption onFalse)
  | .loop loc test cond body => .loop loc test (emit cond) (emitOption body)
  | .switch loc type subject cases default =>
    .switch loc type (emit subject) (emitCases cases) (emitOption default)
  | .ret loc value => .ret loc (emitOption value)
  | .brk loc => .jump (.brk loc) (breakStmt loc)
  | .cont loc => .jump (.cont loc) (continueStmt loc)
  | .throw loc value => .throw loc (emit value)
  | .cast loc type checked inner => .cast loc type checked (emit inner)
  | .tryCatch loc type body handlers =>
    .tryCatch loc type (emitOption body) (emitHandlers handlers)
  | .enumParam loc type value ctor slot => .enumParam loc type ctor slot (emit value)
  | .enumIndex loc value => .enumIndex loc (emit value)
  | .ident loc type name => .ofValue (.ident loc type name) (unsupported (.identifier name) loc)

def emitList : List Expr → List Emission
  | [] => []
  | e :: rest => emit e :: emitList rest

def emitOption : Option Expr → Option Emission
  | none => none
  | some e => some (emit e)

def emitFields : List (FieldInit Expr) → List (FieldInit Emission)
  | [] => []
  | ⟨name, value⟩ :: rest => ⟨name, emit value⟩ :: emitFields rest

def emitParams : List (Param Expr) → List (Param Emission)
  | [] => []
  | ⟨var, optional, default⟩ :: rest => ⟨var, optional, emitOption default⟩ :: emitParams rest

def emitCases : List (Case Expr) → List (Case Emission)
  | [] => []
  | ⟨values, body⟩ :: rest => ⟨emitList values, emitOption body⟩ :: emitCases rest

def emitHandlers : List (Handler Expr) → List (Handler Emission)
  | [] => []
  | ⟨var, body⟩ :: rest => ⟨var, emitOption body⟩ :: emitHandlers rest

end

/-- The text of a tree as an expression. -/
def expression (e : Expr) : Write String := do
  let code ← (emit e).value.act
  return code.text (← get).layout

/-- The text of a tree as a sequence of statements. -/
def statements (e : Expr) : Write String := do
  let code ← ((emit e).body false).act
  return Lua.Stmt.texts (← get).layout code

end LuaBackend.Emit
