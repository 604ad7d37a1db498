import LuaBackend.Lua.Operator
import LuaBackend.Tree.Basic

/-!
# The syntax of generated Lua

Generated code as a tree of Lua expressions and statements. Parentheses
are nodes of their own: where they stand has been decided when the tree
was made. Blocks nest as lists of statements, so every opened block is
closed.
-/

namespace LuaBackend.Lua

open Number

/-- A piece of code given as text, in which expressions may stand. -/
inductive Piece (α : Type) where
  | text (text : String)
  | code (value : α)

/-- One arm of a branch: its condition and what it does. -/
structure Arm (α β : Type) where
  cond : α
  body : List β

mutual

/-- A Lua expression. -/
inductive Expr where
  | nil
  | bool (value : Bool)
  | int (value : Int)
  | float (value : Binary64)
  | string (value : String)
  /-- A name, possibly with dots. -/
  | name (text : String)
  | paren (inner : Expr)
  /-- A member of a table, by name where the name allows it. -/
  | member (object : Expr) (name : String)
  /-- A member of a table, always by string. -/
  | key (object : Expr) (name : String)
  | index (object position : Expr)
  | call (callee : Expr) (args : List Expr)
  /-- A call of a method on an object. -/
  | method (object : Expr) (name : String) (args : List Expr)
  /-- A call that passes the receiver of the current method on. -/
  | callWithSelf (callee : Expr) (args : List Expr)
  | binary (op : Operator) (lhs rhs : Expr)
  | not (operand : Expr)
  | neg (operand : Expr)
  | function (params : List String) (body : List Stmt)
  /-- A block that is called on the spot for its value. -/
  | block (body : List Stmt)
  /-- An anonymous object, with the set of its field names. -/
  | object (fields : List (FieldInit Expr))
  /-- An array counted from zero, with its length. -/
  | array (elements : List Expr)
  /-- Code given as text. -/
  | verbatim (pieces : List (Piece Expr))

/-- A Lua statement. -/
inductive Stmt where
  | localVar (name : String) (init : Option Expr)
  | assign (place value : Expr)
  /-- A call. One that begins with a parenthesis is set apart from the
  statement before it. -/
  | call (call : Expr)
  /-- A call that begins with a name. -/
  | run (call : Expr)
  | ret (value : Option Expr)
  /-- A return that is not the last statement of its block, in a block of
  its own. -/
  | retInside (value : Option Expr)
  | brk
  | goto (label : UInt32)
  | label (label : UInt32)
  | scope (body : List Stmt)
  | loopWhile (cond : Expr) (body : List Stmt)
  /-- Repeats the body while the condition holds, tested after it. -/
  | loopUntilNot (body : List Stmt) (cond : Expr)
  /-- Evaluates a condition and does nothing. -/
  | test (cond : Expr)
  | branches (arms : List (Arm Expr Stmt)) (otherwise : Option (List Stmt))
  /-- Gives a parameter its value if none was passed. -/
  | default (name : String) (value : Expr)
  /-- Runs the body so that errors in it are caught, and keeps the status
  and the result. -/
  | protect (body : List Stmt)
  /-- Sets a global to a function. -/
  | define (place : String) (params : List String) (body : List Stmt)

end

instance : Inhabited Expr := ⟨.nil⟩

instance : Inhabited Stmt := ⟨.brk⟩

/-- A sequence of statements. -/
abbrev Block := List Stmt

end LuaBackend.Lua
