import LuaBackend.Tree.Basic

/-!
# Building typed trees

Nodes with the type that follows from their parts.
-/

namespace LuaBackend.Expr

/-- An integer. -/
def intLit (loc : Loc) (value : Int) : Expr := .const loc .int (.int value)

/-- A truth value. -/
def boolLit (loc : Loc) (value : Bool) : Expr := .const loc .bool (.bool value)

/-- Null, of the type that admits everything. -/
def nullLit (loc : Loc) : Expr := .const loc (.nullable .dynamic) .null

/-- A parenthesized expression. -/
def mkParen (loc : Loc) (inner : Expr) : Expr := .paren loc inner.type inner

/-- An annotated expression. -/
def mkAnnot (loc : Loc) (name : String) (inner : Expr) : Expr :=
  .annot loc inner.type name inner

/-- A binary operation. -/
def mkBinary (loc : Loc) (op : BinaryOp) (lhs rhs : Expr) : Expr :=
  .binary loc (op.resultType lhs.type rhs.type) op lhs rhs

/-- A plain assignment. -/
def mkAssign (loc : Loc) (target value : Expr) : Expr := mkBinary loc .assign target value

/-- A unary operation. -/
def mkUnary (loc : Loc) (op : UnaryOp) (isPost : Bool) (operand : Expr) : Expr :=
  .unary loc (op.resultType operand.type) op isPost operand

/-- A reference to a type. -/
def mkTypeRef (loc : Loc) (path : TypePath) : Expr := .typeRef loc (.inst path []) path

/-- A block, of the type of its last expression. -/
def mkBlock (loc : Loc) (exprs : List Expr) : Expr :=
  .block loc ((exprs.getLast?.map type).getD .void) exprs

/-- A sequence of statements, which yields nothing. -/
def statements (loc : Loc) (stmts : List Expr) : Expr := .block loc .void stmts

/-- The type of a branch whose parts are given: that of its first part if
it has both. -/
def branchType : Option Expr → Option Expr → Ty
  | some onTrue, some _ => onTrue.type
  | _, _ => .void

/-- A branch without a type of its own. -/
def mkIte (loc : Loc) (cond : Expr) (onTrue onFalse : Option Expr) : Expr :=
  .ite loc (branchType onTrue onFalse) cond onTrue onFalse

/-- A function with plain parameters. -/
def mkFunction (loc : Loc) (params : List Var) (result : Ty) (body : Option Expr) : Expr :=
  .function loc (.function (params.map Var.type) result [])
    (params.map fun v => ⟨v, false, none⟩) result body

end LuaBackend.Expr
