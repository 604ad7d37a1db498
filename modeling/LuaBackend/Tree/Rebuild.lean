import LuaBackend.Tree.Build

/-!
# Rebuilding a tree from below

`bottomUp` rebuilds a tree with every node passed through a function,
children before their parents and in the order in which they are
written. `retyped` uses it to bring the types recorded by parentheses and
annotations up to date.
-/

namespace LuaBackend.Expr

variable {m : Type → Type} [Monad m]

mutual

/-- Rebuilds a tree, passing each node through `f` once its children have
been rebuilt. -/
def bottomUp (f : Expr → m Expr) : Expr → m Expr
  | omitted => pure omitted
  | e@(const ..) | e@(.local ..) | e@(typeRef ..) | e@(brk ..) | e@(cont ..)
  | e@(ident ..) => f e
  | field loc type ref receiver => do
    f (.field loc type ref (← bottomUpOption f receiver))
  | index loc type base position => do
    f (.index loc type (← bottomUp f base) (← bottomUp f position))
  | paren loc type inner => do f (.paren loc type (← bottomUp f inner))
  | object loc type fields => do f (.object loc type (← bottomUpFields f fields))
  | array loc type elements => do f (.array loc type (← bottomUpList f elements))
  | call loc type callee args => do
    f (.call loc type (← bottomUp f callee) (← bottomUpList f args))
  | new loc type cls ctorType args => do
    f (.new loc type cls ctorType (← bottomUpList f args))
  | binary loc type op lhs rhs => do
    f (.binary loc type op (← bottomUp f lhs) (← bottomUp f rhs))
  | unary loc type op isPost operand => do
    f (.unary loc type op isPost (← bottomUp f operand))
  | function loc type params result body => do
    f (.function loc type (← bottomUpParams f params) result (← bottomUpOption f body))
  | varDecl loc var init => do f (.varDecl loc var (← bottomUpOption f init))
  | block loc type exprs => do f (.block loc type (← bottomUpList f exprs))
  | forIn loc var iterator body => do
    f (.forIn loc var (← bottomUp f iterator) (← bottomUpOption f body))
  | ite loc type cond onTrue onFalse => do
    f (.ite loc type (← bottomUp f cond) (← bottomUpOption f onTrue)
      (← bottomUpOption f onFalse))
  | loop loc test cond body => do
    f (.loop loc test (← bottomUp f cond) (← bottomUpOption f body))
  | switch loc type subject cases default => do
    f (.switch loc type (← bottomUp f subject) (← bottomUpCases f cases)
      (← bottomUpOption f default))
  | ret loc value => do f (.ret loc (← bottomUpOption f value))
  | throw loc value => do f (.throw loc (← bottomUp f value))
  | cast loc type checked inner => do f (.cast loc type checked (← bottomUp f inner))
  | annot loc type name inner => do f (.annot loc type name (← bottomUp f inner))
  | tryCatch loc type body handlers => do
    f (.tryCatch loc type (← bottomUpOption f body) (← bottomUpHandlers f handlers))
  | enumParam loc type value ctor slot => do
    f (.enumParam loc type (← bottomUp f value) ctor slot)
  | enumIndex loc value => do f (.enumIndex loc (← bottomUp f value))

def bottomUpList (f : Expr → m Expr) : List Expr → m (List Expr)
  | [] => pure []
  | e :: rest => do return (← bottomUp f e) :: (← bottomUpList f rest)

def bottomUpOption (f : Expr → m Expr) : Option Expr → m (Option Expr)
  | none => pure none
  | some e => do return some (← bottomUp f e)

def bottomUpFields (f : Expr → m Expr) : List (FieldInit Expr) → m (List (FieldInit Expr))
  | [] => pure []
  | ⟨name, value⟩ :: rest => do return ⟨name, ← bottomUp f value⟩ :: (← bottomUpFields f rest)

def bottomUpParams (f : Expr → m Expr) : List (Param Expr) → m (List (Param Expr))
  | [] => pure []
  | ⟨var, optional, default⟩ :: rest => do
    return ⟨var, optional, ← bottomUpOption f default⟩ :: (← bottomUpParams f rest)

def bottomUpCases (f : Expr → m Expr) : List (Case Expr) → m (List (Case Expr))
  | [] => pure []
  | ⟨values, body⟩ :: rest => do
    return ⟨← bottomUpList f values, ← bottomUpOption f body⟩ :: (← bottomUpCases f rest)

def bottomUpHandlers (f : Expr → m Expr) : List (Handler Expr) → m (List (Handler Expr))
  | [] => pure []
  | ⟨var, body⟩ :: rest => do
    return ⟨var, ← bottomUpOption f body⟩ :: (← bottomUpHandlers f rest)

end

/-- Parentheses and annotations take the type of their inner node; every
other node stays as it is. -/
def retype : Expr → Expr
  | paren loc _ inner => mkParen loc inner
  | annot loc _ name inner => mkAnnot loc name inner
  | e => e

/-- The tree with the types of all parentheses and annotations up to
date. -/
def retyped (e : Expr) : Expr := Id.run (e.bottomUp fun e => pure e.retype)

end LuaBackend.Expr
