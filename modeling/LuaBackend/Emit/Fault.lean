import LuaBackend.Tree.Query

/-!
# What cannot be written in Lua

Writing a tree as Lua fails on constructs that have no rendering, most of
them because the tree is not in normal form. A failure concerns the tree
or declaration being written and nothing else.
-/

namespace LuaBackend.Emit

/-- A construct without a rendering. -/
inductive Construct where
  /-- The word `super` where it is neither called nor accessed. -/
  | bareSuper
  /-- A node that is not a value in a value position. -/
  | statementInValue (word : String)
  /-- The operator `??` as a statement. -/
  | nullCoalesceStatement
  /-- An identifier that names no intrinsic. -/
  | identifier (name : String)
  | staticWithoutOwner
  | memberWithoutReceiver
  | superWithoutBase
  | superCallOutsideCtor
  | superCallWithoutBase
  | codeWithoutText
  | globalWithoutName
  | hashArguments
  | callWithoutFunction
  | breakOutsideLoop
  | continueOutsideLoop
  | methodWithoutFunction (name : String)
deriving DecidableEq, Inhabited

/-- The words for a construct. -/
def Construct.text : Construct → String
  | bareSuper => "'super' outside of a call or member access"
  | statementInValue word => word ++ " in value position"
  | nullCoalesceStatement => "null coalescing outside normal form"
  | identifier name => "unresolved identifier '" ++ name ++ "'"
  | staticWithoutOwner => "static access without an owner type"
  | memberWithoutReceiver => "member access without a receiver"
  | superWithoutBase => "'super' in a class without superclass"
  | superCallOutsideCtor => "super constructor call outside of a constructor"
  | superCallWithoutBase => "super constructor call in a class without superclass"
  | codeWithoutText => "'__lua__' without a constant code string"
  | globalWithoutName => "'__global__' without a constant function name"
  | hashArguments => "'__hash__' expects one argument"
  | callWithoutFunction => "'__call__' without a function value"
  | breakOutsideLoop => "break outside of a loop"
  | continueOutsideLoop => "continue outside of a loop"
  | methodWithoutFunction name => "method '" ++ name ++ "' without a function body"

/-- The word for a node where it is refused as a value. -/
def valueWord : LuaBackend.Expr → String
  | .binary _ _ .nullCoalesce _ _ => "null coalescing"
  | .binary .. => "assignment"
  | .unary .. => "increment"
  | .varDecl .. => "variable declaration"
  | .forIn .. => "for loop"
  | .ite .. => "if"
  | .loop .. => "while loop"
  | .switch .. => "switch"
  | .ret .. => "return"
  | .brk .. => "break"
  | .cont .. => "continue"
  | .throw .. => "throw"
  | .tryCatch .. => "try"
  | _ => "expression"

/-- Why a tree is not written. -/
inductive Fault where
  /-- It holds a construct without a rendering. -/
  | unsupported (construct : Construct) (loc : Loc)
  /-- A compound assignment uses an operator that yields no value. -/
  | operatorWithoutValue
  /-- A continue belongs to a loop that has no label. -/
  | unlabelledContinue
  /-- The number of a placeholder does not fit into 64 bits. -/
  | placeholderOverflow
deriving DecidableEq, Inhabited

/-- The wording of a failure. -/
def Fault.message : Fault → String
  | unsupported construct _ => "cannot emit " ++ construct.text
  | operatorWithoutValue => "operator has no value rendering"
  | unlabelledContinue => "continue in a loop without a continue label"
  | placeholderOverflow => "stoul"

/-- The code of diagnostics about constructs without a rendering. -/
def unsupportedCode : String := "L1001"

end LuaBackend.Emit
