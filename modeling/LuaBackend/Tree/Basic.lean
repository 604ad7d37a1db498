import LuaBackend.Number.Binary64
import LuaBackend.Source.Loc
import LuaBackend.Tree.Operator

/-!
# Typed trees

In the source language everything is an expression: blocks, branches and
loops stand wherever a value may stand. `Expr` is the tree of such a
program as a front end hands it over, every node with its position and,
where it is not fixed by the node itself, its type.

A `paren` or `annot` node records the type its inner node had when it was
built; `Expr.retyped` brings these types up to date after inner nodes
have been replaced.
-/

namespace LuaBackend

open Number

/-- The smallest number of a variable made by the backend. Front ends
number their variables below it. -/
def tempBase : UInt32 := 0x40000000

/-- A local variable. Variables are told apart by their numbers; two may
share a name. -/
structure Var where
  id : UInt32
  name : String
  type : Ty
deriving Inhabited

/-- The variable was made by the backend. -/
def Var.isTemp (v : Var) : Bool := tempBase ≤ v.id

/-- A constant. -/
inductive Const where
  | int (value : Int)
  | float (value : Binary64)
  | string (value : String)
  | bool (value : Bool)
  | null
  | this
  | super
deriving DecidableEq, Inhabited

/-- How a member is reached. -/
inductive Access where
  /-- A member of an object of a known class. -/
  | inst
  /-- A member of a class itself. -/
  | static
  /-- A member of an anonymous object. -/
  | anon
  /-- A member looked up by name at run time. -/
  | dynamic
  /-- A method taken as a value together with its object. -/
  | closure
  /-- A constructor of an enum. -/
  | enumCtor
deriving DecidableEq, Inhabited

/-- A member as an access names it. -/
structure MemberRef where
  access : Access
  name : String
  /-- The type the member belongs to; empty when it does not matter. -/
  owner : TypePath := {}
  isMethod : Bool := false
  /-- The name the member has in Lua, if it differs. -/
  native : Option String := none
deriving Inhabited

/-- The name the member has in Lua. -/
def MemberRef.target (m : MemberRef) : String := m.native.getD m.name

/-- When a loop tests its condition. -/
inductive LoopTest where
  | before
  | after
deriving DecidableEq, Inhabited

/-- A named part of an object literal. -/
structure FieldInit (α : Type) where
  name : String
  value : α

/-- A parameter of a function. -/
structure Param (α : Type) where
  var : Var
  optional : Bool
  default : Option α

/-- A case of a switch: the values that select it, and what it does. -/
structure Case (α : Type) where
  values : List α
  body : Option α

/-- A handler of a try. -/
structure Handler (α : Type) where
  var : Var
  body : Option α

/-- A typed expression. -/
inductive Expr where
  /-- An element left out of a list. It has no position and no type, and
  counts as null where a value is wanted. -/
  | omitted
  | const (loc : Loc) (type : Ty) (value : Const)
  | local (loc : Loc) (var : Var)
  | field (loc : Loc) (type : Ty) (ref : MemberRef) (receiver : Option Expr)
  | index (loc : Loc) (type : Ty) (base position : Expr)
  | paren (loc : Loc) (type : Ty) (inner : Expr)
  | object (loc : Loc) (type : Ty) (fields : List (FieldInit Expr))
  | array (loc : Loc) (type : Ty) (elements : List Expr)
  | typeRef (loc : Loc) (type : Ty) (path : TypePath)
  | call (loc : Loc) (type : Ty) (callee : Expr) (args : List Expr)
  | new (loc : Loc) (type : Ty) (cls : TypePath) (ctorType : Ty) (args : List Expr)
  | binary (loc : Loc) (type : Ty) (op : BinaryOp) (lhs rhs : Expr)
  | unary (loc : Loc) (type : Ty) (op : UnaryOp) (isPost : Bool) (operand : Expr)
  | function (loc : Loc) (type : Ty) (params : List (Param Expr)) (result : Ty)
      (body : Option Expr)
  | varDecl (loc : Loc) (var : Var) (init : Option Expr)
  | block (loc : Loc) (type : Ty) (exprs : List Expr)
  | forIn (loc : Loc) (var : Var) (iterator : Expr) (body : Option Expr)
  | ite (loc : Loc) (type : Ty) (cond : Expr) (onTrue onFalse : Option Expr)
  | loop (loc : Loc) (test : LoopTest) (cond : Expr) (body : Option Expr)
  | switch (loc : Loc) (type : Ty) (subject : Expr) (cases : List (Case Expr))
      (default : Option Expr)
  | ret (loc : Loc) (value : Option Expr)
  | brk (loc : Loc)
  | cont (loc : Loc)
  | throw (loc : Loc) (value : Expr)
  | cast (loc : Loc) (type : Ty) (checked : Option TypePath) (inner : Expr)
  | annot (loc : Loc) (type : Ty) (name : String) (inner : Expr)
  | tryCatch (loc : Loc) (type : Ty) (body : Option Expr) (handlers : List (Handler Expr))
  | enumParam (loc : Loc) (type : Ty) (value : Expr) (ctor : String) (slot : UInt32)
  | enumIndex (loc : Loc) (value : Expr)
  | ident (loc : Loc) (type : Ty) (name : String)
deriving Inhabited

namespace Expr

/-- The position of a node. -/
def loc : Expr → Loc
  | omitted => {}
  | const loc .. | .local loc .. | field loc .. | index loc .. | paren loc ..
  | object loc .. | array loc .. | typeRef loc .. | call loc .. | new loc ..
  | binary loc .. | unary loc .. | function loc .. | varDecl loc .. | block loc ..
  | forIn loc .. | ite loc .. | loop loc .. | switch loc .. | ret loc ..
  | brk loc | cont loc | throw loc .. | cast loc .. | annot loc ..
  | tryCatch loc .. | enumParam loc .. | enumIndex loc .. | ident loc .. => loc

/-- The type of a node. A local has the type of its variable, and what
yields no value is `void`. -/
def type : Expr → Ty
  | omitted => .untyped
  | .local _ var => var.type
  | const _ type .. | field _ type .. | index _ type .. | paren _ type ..
  | object _ type .. | array _ type .. | typeRef _ type .. | call _ type ..
  | new _ type .. | binary _ type .. | unary _ type .. | function _ type ..
  | block _ type .. | ite _ type .. | switch _ type .. | cast _ type ..
  | annot _ type .. | tryCatch _ type .. | enumParam _ type .. | ident _ type .. => type
  | varDecl .. | forIn .. | loop .. | ret .. | brk .. | cont .. | throw .. => .void
  | enumIndex .. => .int

end Expr

end LuaBackend
