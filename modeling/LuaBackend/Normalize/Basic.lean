import LuaBackend.Normalize.Lowering

/-!
# Normalization

Normalization turns an expression-oriented tree into one in which every
value position holds a plain value. What cannot stay inside a value is
hoisted: it becomes statements that run before the statement that uses
the value, and a temporary stands in its place.

`lower` gives the lowering of a tree, made from the lowerings of its
parts; `normalize`, `normalizeValue` and `normalizeFunction` read off it
what is wanted. Since a lowering is made from those of smaller trees
only, normalization ends on every tree, also where a loop or a switch is
lowered as a larger one.
-/

namespace LuaBackend.Normalize

mutual

/-- The lowering of a tree. -/
def lower : Expr → Lowering
  | e@.omitted | e@(.const ..) | e@(.local ..) | e@(.typeRef ..) | e@(.ident ..) => .leaf e
  | e@(.brk _) | e@(.cont _) => .jump e
  | .field loc type ref receiver => .field loc type ref (lowerOption receiver)
  | .index loc type base position => .index loc type (lower base) (lower position)
  | .paren loc type inner => .paren loc type (lower inner)
  | .annot loc type name inner => .annot loc type name (lower inner)
  | .object loc type fields => .object loc type (lowerFields fields)
  | .array loc type elements => .array loc type (lowerList elements)
  | .call loc type (.field memberLoc memberType ref receiver) args =>
    .callMember loc type memberLoc memberType ref (lowerOption receiver) (lowerList args)
  | .call loc type callee args => .call loc type (lower callee) (lowerList args)
  | .new loc type cls ctorType args => .new loc type cls ctorType (lowerList args)
  | .binary loc type op lhs rhs => .binary loc type op (lower lhs) (lower rhs)
  | .unary loc type op isPost operand => .unary loc type op isPost (lower operand)
  | .function loc type params result body => .function loc type params result (lowerOption body)
  | .varDecl loc var init => .varDecl loc var (lowerOption init)
  | .block loc type exprs => .block loc type (lowerList exprs)
  | .forIn loc var iterator body => .forIn loc var (lower iterator) (lowerOption body)
  | .ite loc type cond onTrue onFalse =>
    .ite loc type (lower cond) (lowerOption onTrue) (lowerOption onFalse)
  | .loop loc test cond body => .loop loc test (lower cond) (lowerOption body)
  | .switch loc type subject cases default =>
    .switch loc type (lower subject) (lowerCases cases) (lowerOption default)
  | .ret loc value => .ret loc (lowerOption value)
  | .throw loc value => .throw loc (lower value)
  | .cast loc type checked inner => .cast loc type checked (lower inner)
  | .tryCatch loc type body handlers =>
    .tryCatch loc type (lowerOption body) (lowerHandlers handlers)
  | .enumParam loc type value ctor slot => .enumParam loc type ctor slot (lower value)
  | .enumIndex loc value => .enumIndex loc (lower value)

def lowerList : List Expr → List Lowering
  | [] => []
  | e :: rest => lower e :: lowerList rest

def lowerOption : Option Expr → Option Lowering
  | none => none
  | some e => some (lower e)

def lowerFields : List (FieldInit Expr) → List (FieldInit Lowering)
  | [] => []
  | ⟨name, value⟩ :: rest => ⟨name, lower value⟩ :: lowerFields rest

def lowerCases : List (Case Expr) → List (Case Lowering)
  | [] => []
  | ⟨values, body⟩ :: rest => ⟨lowerList values, lowerOption body⟩ :: lowerCases rest

def lowerHandlers : List (Handler Expr) → List (Handler Lowering)
  | [] => []
  | ⟨var, body⟩ :: rest => ⟨var, lowerOption body⟩ :: lowerHandlers rest

end

/-- The statements of a tree, as a block. The value of the tree is stored
in the assignee, if there is one. -/
def normalize (e : Expr) (assignee : Option Expr) : Norm Expr := do
  return .statements e.loc (← (lower e).body assignee)

/-- The value of a tree, and the statements that have to run before
it. -/
def normalizeValue (e : Expr) : Norm Hoisted := (lower e).value

/-- A function literal with its body in normal form. -/
def normalizeFunction (e : Expr) : Norm Expr := do
  return (← (lower e).value).value

end LuaBackend.Normalize
