import LuaBackend.Tree.Operator

/-!
# Operators of Lua

The binary operators that generated code uses, with their precedence, and
the choice of a Lua operator for an operator of the source language. An
operator that Lua does not have is a call of a helper.
-/

namespace LuaBackend.Lua

/-- A binary operator of Lua. -/
inductive Operator where
  | or
  | and
  | eq
  | ne
  | lt
  | le
  | gt
  | ge
  | concat
  | add
  | sub
  | mul
  | div
  | mod
deriving DecidableEq, Inhabited

namespace Operator

/-- The spelling of an operator. -/
def spelling : Operator → String
  | or => "or"
  | and => "and"
  | eq => "=="
  | ne => "~="
  | lt => "<"
  | le => "<="
  | gt => ">"
  | ge => ">="
  | concat => ".."
  | add => "+"
  | sub => "-"
  | mul => "*"
  | div => "/"
  | mod => "%"

/-- How tightly an operator binds. -/
def precedence : Operator → Nat
  | or => 1
  | and => 2
  | eq | ne | lt | le | gt | ge => 3
  | concat => 4
  | add | sub => 5
  | mul | div | mod => 6

/-- A chain of the operator groups from the right. -/
def isRightAssoc : Operator → Bool
  | concat => true
  | _ => false

end Operator

/-- How tightly a unary operator binds. -/
def unaryPrecedence : Nat := 7

/-- How tightly an operand without operators of its own binds. -/
def atomPrecedence : Nat := 100

/-- What becomes of an operator of the source language. -/
inductive Rendering where
  /-- An operator of Lua. -/
  | operator (op : Operator)
  /-- A call of a helper with both operands. -/
  | helper (name : String)
  /-- Nothing: the operator has no value in Lua. -/
  | none
deriving DecidableEq, Inhabited

/-- How tightly the rendering of an operation binds. -/
def Rendering.precedence : Rendering → Nat
  | operator op => op.precedence
  | helper _ | none => atomPrecedence

/-- The rendering of an operator, given the types of its operands and of
its result: adding strings concatenates them, and the remainder of floats
is a function. -/
def rendering (op : BinaryOp) (lhs rhs result : Ty) : Rendering :=
  match op with
  | .or => .operator .or
  | .and => .operator .and
  | .eq => .operator .eq
  | .ne => .operator .ne
  | .lt => .operator .lt
  | .le => .operator .le
  | .gt => .operator .gt
  | .ge => .operator .ge
  | .add =>
    if result.isString || lhs.isString || rhs.isString then .operator .concat else .operator .add
  | .sub => .operator .sub
  | .mul => .operator .mul
  | .div => .operator .div
  | .mod =>
    if result.isFloat || lhs.isFloat || rhs.isFloat then .helper "math.fmod" else .operator .mod
  | .bitAnd => .helper "_hx_bit.band"
  | .bitOr => .helper "_hx_bit.bor"
  | .bitXor => .helper "_hx_bit.bxor"
  | .shl => .helper "_hx_bit.lshift"
  | .shr => .helper "_hx_bit.arshift"
  | .ushr => .helper "_hx_bit.rshift"
  | .assign | .compound _ | .nullCoalesce => .none

end LuaBackend.Lua
