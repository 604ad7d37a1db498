import LuaBackend.Emit.Tree
import LuaBackend.Tree.Decl

/-!
# Writing declarations

A class is a global table with a prototype table that holds its methods.
Making an object and initializing it are two functions, `new` and
`super`, so that a subclass can initialize its own object as its base
class does. An enum is a table of constructors; a constructor with
parameters is a function. Of an abstract only the static members of its
class are written.
-/

namespace LuaBackend.Emit

open Text

/-- The function of a method: its code in normal form, or as given. -/
def methodCode (m : Member) : Write (List (Param Expr) × Option Expr) :=
  match m.lowered <|> m.code with
  | some (.function _ _ params _ body) => return (params, body)
  | _ => throwThe Fault (.unsupported (.methodWithoutFunction m.name) m.loc)

/-- A method as a Lua function with the given first parameters. -/
def methodFunction (first : List String) (m : Member) : Write Lua.Expr := do
  let (params, body) ← methodCode m
  (Emission.functionWith first (emitParams params) (emitOption body)).act

/-- The statements that set a variable of `owner`. Code in normal form
sets the variable itself; if it takes several statements they get a scope
of their own. -/
def initializer (owner : String) (m : Member) : Write Lua.Block := do
  match m.lowered with
  | some code =>
    match code.bare with
    | .block _ _ [_] => ((emit code).body false).act
    | .block loc type exprs => ((emit (.block loc type exprs)).stmt false).act
    | _ => ((emit code).body false).act
  | none =>
    match m.code with
    | none => return []
    | some code => return [.assign (.member (.name owner) m.target) (← (emit code).value.act)]

/-- The statements for several members. -/
def forMembers (act : Member → Write Lua.Block) : List Member → Write Lua.Block
  | [] => return []
  | m :: rest => do
    let stmts ← act m
    return stmts ++ (← forMembers act rest)

/-- Writes inside the body of a constructor. -/
def inConstructor {α : Type} (act : Write α) : Write α := do
  modify fun context => { context with scope.inCtor := true }
  let value ← act
  modify fun context => { context with scope.inCtor := false }
  return value

/-- What initializes an object: default values of parameters, initial
values of variables, and the body of the constructor. Without a
constructor the base class does the rest. -/
def initialization (decl : ClassDecl) (ctor : Option (List (Param Expr) × Option Expr)) :
    Write Lua.Block := do
  let defaults ← match ctor with
    | some (params, _) => (Emission.defaults (emitParams params)).act
    | none => pure []
  let vars ← forMembers (initializer "self") (decl.fields.filter Member.isInitialized)
  let body ← match ctor with
    | some (_, some body) => inConstructor ((emit body).body false).act
    | some (_, none) => pure []
    | none =>
      if decl.base.isSome then
        pure [.run (.call (.name ((← get).scope.base ++ ".super")) [.name "self", .name "..."])]
      else pure []
  return defaults ++ vars ++ body

/-- The two functions that make and initialize objects of a class. A class
with nothing to initialize has none. -/
def constructors (decl : ClassDecl) : Write Lua.Block := do
  let ctor ← match decl.ctor with
    | some m => some <$> methodCode m
    | none => pure none
  if ctor.isNone && decl.base.isNone && !decl.fields.any Member.isInitialized then return []
  let name := decl.path.global
  let params := match ctor with
    | some (params, _) => Lua.nameList (params.map fun p => Lua.localName p.var)
    | none => if decl.base.isSome then "..." else ""
  let withSelf := if params.isEmpty then ["self"] else ["self", params]
  let make : Lua.Stmt := .define (name ++ ".new") [params]
    [.localVar "self" (some (.call (.name "_hx_new") [.name (name ++ ".prototype")])),
      .run (.call (.name (name ++ ".super")) (withSelf.map .name)),
      .ret (some (.name "self"))]
  let init ← deeper (initialization decl ctor)
  return [make, .define (name ++ ".super") withSelf init]

/-- A global set to a piece of text. -/
def setGlobal (place text : String) : Lua.Stmt := .assign (.name place) (.name text)

/-- The table of a class and its name. -/
def classTable (path : TypePath) : Lua.Block :=
  [setGlobal path.global "\x7b\x7d",
    .assign (.name (path.global ++ ".__name__")) (.string path.dotted)]

/-- The methods in the prototype of a class. -/
def prototypeMethods (name : String) (fields : List Member) : Write Lua.Block :=
  forMembers (fun m => do
      return [.assign (.member (.name (name ++ ".prototype")) m.target)
        (← methodFunction ["self"] m)])
    (fields.filter fun m => m.kind = .method)

/-- The static members of a class. -/
def staticMembers (name : String) (statics : List Member) : Write Lua.Block :=
  forMembers (fun m => do
      match m.kind with
      | .method => return [.assign (.member (.name name) m.target) (← methodFunction [] m)]
      | .var => if m.code.isSome then initializer name m else return [])
    statics

/-- The link from a class to its base class. -/
def baseLink (name base : String) : Lua.Block :=
  [setGlobal (name ++ ".__super__") base,
    .run (.name ("setmetatable(" ++ name ++ ".prototype, \x7b__index = " ++ base ++ ".prototype\x7d)"))]

/-- A class or interface. -/
def classBlock (decl : ClassDecl) : Write Lua.Block := do
  if decl.isExternal then return []
  let name := decl.path.global
  let base := (decl.base.map TypePath.global).getD ""
  modify fun context => { context with scope := { context.scope with base := base } }
  let interfaces := if decl.interfaces.isEmpty then []
    else [setGlobal (name ++ ".__interfaces__")
      ("\x7b" ++ Lua.nameList (decl.interfaces.map TypePath.global) ++ "\x7d")]
  if decl.isInterface then return classTable decl.path ++ interfaces
  let ctors ← constructors decl
  let methods ← prototypeMethods name decl.fields
  let link := if decl.base.isSome then baseLink name base else []
  let statics ← staticMembers name decl.statics
  return classTable decl.path ++ interfaces ++ ctors
    ++ setGlobal (name ++ ".prototype") "\x7b\x7d" :: methods
    ++ setGlobal (name ++ ".prototype.__class__") name :: link ++ statics

/-- The value of an enum constructor: its name, its index and its
parameters. -/
def enumValue (enum : String) (c : EnumCtor) (params : String) : String :=
  "\x7b[0]=" ++ Lua.quote c.name ++ ", " ++ toString c.index
    ++ (if params.isEmpty then "" else ", " ++ params) ++ ", __enum__=" ++ enum ++ "\x7d"

/-- A constructor of an enum. -/
def enumCtor (enum : String) (c : EnumCtor) : Lua.Stmt :=
  let params := Lua.nameList (c.params.map fun p => Lua.localIdentifier p.1)
  let value := enumValue enum c params
  .assign (.member (.name enum) c.name) <| .name <|
    if c.params.isEmpty then value
    else "function(" ++ params ++ ") return " ++ value ++ " end"

/-- An enum. -/
def enumBlock (path : TypePath) (ctors : List EnumCtor) : Lua.Block :=
  let name := path.global
  setGlobal name ("\x7b__ename__ = " ++ Lua.quote path.dotted ++ ", __constructs__ = \x7b"
      ++ ", ".intercalate (ctors.map fun c => Lua.quote c.name) ++ "\x7d\x7d")
    :: ctors.map (enumCtor name)

/-- An abstract. -/
def abstractBlock : Option ClassDecl → Write Lua.Block
  | none => return []
  | some impl => do
    modify fun context => { context with current := impl.path }
    return classTable impl.path ++ (← staticMembers impl.path.global impl.statics)

/-- The Lua statements for a declaration. Type aliases and classes that
live outside the program have none. -/
def declBlock (decl : Decl) : Write Lua.Block := do
  modify fun context => { context with
    current := decl.path
    scope := { context.scope with base := "", inCtor := false } }
  match decl with
  | .cls decl => classBlock decl
  | .enum path _ ctors => return enumBlock path ctors
  | .typedef .. => return []
  | .abstract _ _ _ impl => abstractBlock impl

/-- The text of a declaration. -/
def declaration (decl : Decl) : Write String := do
  let code ← declBlock decl
  return Lua.Stmt.texts (← get).layout code

end LuaBackend.Emit
