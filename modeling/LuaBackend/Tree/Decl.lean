import LuaBackend.Tree.Basic

/-!
# Declarations

A program is a list of declarations: classes and interfaces, enums,
type aliases, and abstracts, which are types whose members live in a
class of their own.
-/

namespace LuaBackend

/-- What sort of member of a class it is. -/
inductive MemberKind where
  | var
  | method
deriving DecidableEq, Inhabited

/-- A member of a class. -/
structure Member where
  name : String
  kind : MemberKind
  type : Ty
  /-- The initial value of a variable, or the function of a method. -/
  code : Option Expr := none
  /-- The name the member has in Lua, if it differs. -/
  native : Option String := none
  loc : Loc := {}
  /-- The code in normal form, once the member has been lowered. -/
  lowered : Option Expr := none
deriving Inhabited

/-- The name the member has in Lua. -/
def Member.target (m : Member) : String := m.native.getD m.name

/-- The member is a variable with an initial value. -/
def Member.isInitialized (m : Member) : Bool := m.kind = .var && m.code.isSome

/-- A class or an interface. -/
structure ClassDecl where
  path : TypePath
  loc : Loc := {}
  base : Option TypePath := none
  interfaces : List TypePath := []
  ctor : Option Member := none
  fields : List Member := []
  statics : List Member := []
  isInterface : Bool := false
  /-- The class is provided by Lua code outside the program. -/
  isExternal : Bool := false
deriving Inhabited

/-- A constructor of an enum. -/
structure EnumCtor where
  name : String
  index : UInt32
  params : List (String × Ty)
deriving Inhabited

/-- A declaration. -/
inductive Decl where
  | cls (decl : ClassDecl)
  | enum (path : TypePath) (loc : Loc) (ctors : List EnumCtor)
  | typedef (path : TypePath) (loc : Loc) (target : Ty)
  | abstract (path : TypePath) (loc : Loc) (underlying : Ty) (impl : Option ClassDecl)
deriving Inhabited

namespace Decl

/-- The path of the declared type. -/
def path : Decl → TypePath
  | cls decl => decl.path
  | enum path .. | typedef path .. | .abstract path .. => path

/-- The position of the declaration. -/
def loc : Decl → Loc
  | cls decl => decl.loc
  | enum _ loc .. | typedef _ loc .. | .abstract _ loc .. => loc

end Decl

end LuaBackend
