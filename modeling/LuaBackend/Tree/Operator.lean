import LuaBackend.Types.Basic

/-!
# Operators of the typed tree

The binary and unary operators of the source language, their spellings,
and the type an operation has when nothing else is said.
-/

namespace LuaBackend

/-- A binary operator. -/
inductive BinaryOp where
  | add
  | sub
  | mul
  | div
  | mod
  | eq
  | ne
  | lt
  | le
  | gt
  | ge
  | and
  | or
  | bitAnd
  | bitOr
  | bitXor
  | shl
  | shr
  | ushr
  | assign
  /-- Compound assignment: the target becomes the target combined with the
  right side by `op`. -/
  | compound (op : BinaryOp)
  | nullCoalesce
deriving DecidableEq, Inhabited

namespace BinaryOp

/-- The operator's own name. A compound assignment is named without its
operator. -/
def name : BinaryOp → String
  | .add => "+"
  | .sub => "-"
  | .mul => "*"
  | .div => "/"
  | .mod => "%"
  | .eq => "=="
  | .ne => "!="
  | .lt => "<"
  | .le => "<="
  | .gt => ">"
  | .ge => ">="
  | .and => "&&"
  | .or => "||"
  | .bitAnd => "&"
  | .bitOr => "|"
  | .bitXor => "^"
  | .shl => "<<"
  | .shr => ">>"
  | .ushr => ">>>"
  | .assign => "="
  | .compound _ => "op="
  | .nullCoalesce => "??"

/-- The operator as an operation is spelled, compound assignments with
the operator they apply. -/
def spelling : BinaryOp → String
  | .compound op => op.name ++ "="
  | op => op.name

/-- A plain or compound assignment. -/
def isAssignment : BinaryOp → Bool
  | .assign | .compound _ => true
  | _ => false

/-- The type of an operation on operands of the given types. -/
def resultType (op : BinaryOp) (lhs rhs : Ty) : Ty :=
  match op with
  | .eq | .ne | .lt | .le | .gt | .ge | .and | .or => .bool
  | .add =>
    if lhs.isString || rhs.isString then .string
    else if lhs.isFloat || rhs.isFloat then .float
    else lhs
  | .sub | .mul | .mod => if lhs.isFloat || rhs.isFloat then .float else lhs
  | .div => .float
  | .bitAnd | .bitOr | .bitXor | .shl | .shr | .ushr => .int
  | .assign | .compound _ => lhs
  | .nullCoalesce => rhs

end BinaryOp

/-- A unary operator. -/
inductive UnaryOp where
  | increment
  | decrement
  | not
  | neg
  | negBits
deriving DecidableEq, Inhabited

namespace UnaryOp

/-- The operator's spelling. -/
def spelling : UnaryOp → String
  | .increment => "++"
  | .decrement => "--"
  | .not => "!"
  | .neg => "-"
  | .negBits => "~"

/-- The operator changes its operand. -/
def isStep : UnaryOp → Bool
  | .increment | .decrement => true
  | .not | .neg | .negBits => false

/-- The binary operator a step applies to its operand and one. -/
def stepOp : UnaryOp → BinaryOp
  | .increment => .add
  | _ => .sub

/-- The type of an operation on an operand of the given type. -/
def resultType (op : UnaryOp) (operand : Ty) : Ty :=
  match op with
  | .not => .bool
  | _ => operand

end UnaryOp

end LuaBackend
