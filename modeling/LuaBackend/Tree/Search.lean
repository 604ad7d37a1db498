import LuaBackend.Tree.Query

/-!
# Searching a tree, and the jumps that leave it

`search` looks for a node without going below the nodes where it is told
to stop. With it, a body is asked for the jumps that leave it: a return
leaves the enclosing function, a break or continue belongs to the nearest
loop. Neither reaches out of a function literal.
-/

namespace LuaBackend.Expr

mutual

/-- A node satisfying `hit` is found at `e` or below, not looking below
nodes that satisfy `stop`. -/
def search (hit stop : Expr → Bool) : Expr → Bool
  | e@omitted | e@(const ..) | e@(.local ..) | e@(typeRef ..) | e@(brk ..) | e@(cont ..)
  | e@(ident ..) => hit e
  | e@(field _ _ _ receiver) => hit e || (!stop e && searchOption hit stop receiver)
  | e@(index _ _ base position) =>
    hit e || (!stop e && (search hit stop base || search hit stop position))
  | e@(paren _ _ inner) => hit e || (!stop e && search hit stop inner)
  | e@(object _ _ fields) => hit e || (!stop e && searchFields hit stop fields)
  | e@(array _ _ elements) => hit e || (!stop e && searchList hit stop elements)
  | e@(call _ _ callee args) =>
    hit e || (!stop e && (search hit stop callee || searchList hit stop args))
  | e@(new _ _ _ _ args) => hit e || (!stop e && searchList hit stop args)
  | e@(binary _ _ _ lhs rhs) =>
    hit e || (!stop e && (search hit stop lhs || search hit stop rhs))
  | e@(unary _ _ _ _ operand) => hit e || (!stop e && search hit stop operand)
  | e@(function _ _ params _ body) =>
    hit e || (!stop e && (searchParams hit stop params || searchOption hit stop body))
  | e@(varDecl _ _ init) => hit e || (!stop e && searchOption hit stop init)
  | e@(block _ _ exprs) => hit e || (!stop e && searchList hit stop exprs)
  | e@(forIn _ _ iterator body) =>
    hit e || (!stop e && (search hit stop iterator || searchOption hit stop body))
  | e@(ite _ _ cond onTrue onFalse) =>
    hit e || (!stop e && (search hit stop cond || searchOption hit stop onTrue
      || searchOption hit stop onFalse))
  | e@(loop _ _ cond body) =>
    hit e || (!stop e && (search hit stop cond || searchOption hit stop body))
  | e@(switch _ _ subject cases default) =>
    hit e || (!stop e && (search hit stop subject || searchCases hit stop cases
      || searchOption hit stop default))
  | e@(ret _ value) => hit e || (!stop e && searchOption hit stop value)
  | e@(throw _ value) => hit e || (!stop e && search hit stop value)
  | e@(cast _ _ _ inner) => hit e || (!stop e && search hit stop inner)
  | e@(annot _ _ _ inner) => hit e || (!stop e && search hit stop inner)
  | e@(tryCatch _ _ body handlers) =>
    hit e || (!stop e && (searchOption hit stop body || searchHandlers hit stop handlers))
  | e@(enumParam _ _ value _ _) => hit e || (!stop e && search hit stop value)
  | e@(enumIndex _ value) => hit e || (!stop e && search hit stop value)

def searchList (hit stop : Expr → Bool) : List Expr → Bool
  | [] => false
  | e :: rest => search hit stop e || searchList hit stop rest

def searchOption (hit stop : Expr → Bool) : Option Expr → Bool
  | none => false
  | some e => search hit stop e

def searchFields (hit stop : Expr → Bool) : List (FieldInit Expr) → Bool
  | [] => false
  | ⟨_, value⟩ :: rest => search hit stop value || searchFields hit stop rest

def searchParams (hit stop : Expr → Bool) : List (Param Expr) → Bool
  | [] => false
  | ⟨_, _, default⟩ :: rest => searchOption hit stop default || searchParams hit stop rest

def searchCases (hit stop : Expr → Bool) : List (Case Expr) → Bool
  | [] => false
  | ⟨values, body⟩ :: rest =>
    searchList hit stop values || searchOption hit stop body || searchCases hit stop rest

def searchHandlers (hit stop : Expr → Bool) : List (Handler Expr) → Bool
  | [] => false
  | ⟨_, body⟩ :: rest => searchOption hit stop body || searchHandlers hit stop rest

end

/-- A function literal. -/
def isFunction : Expr → Bool
  | function .. => true
  | _ => false

/-- A loop of either form. -/
def isLoop : Expr → Bool
  | loop .. | forIn .. => true
  | _ => false

/-- A return. -/
def isReturn : Expr → Bool
  | ret .. => true
  | _ => false

/-- A break. -/
def isBreak : Expr → Bool
  | brk .. => true
  | _ => false

/-- A continue. -/
def isContinue : Expr → Bool
  | cont .. => true
  | _ => false

/-- The body holds a return that leaves the function around it. -/
def canReturn (body : Expr) : Bool := body.search isReturn isFunction

/-- The body holds a break of the loop around it. -/
def breaksLoop (body : Expr) : Bool :=
  body.search isBreak fun e => e.isFunction || e.isLoop

/-- The body holds a continue of the loop around it. -/
def continuesLoop (body : Expr) : Bool :=
  body.search isContinue fun e => e.isFunction || e.isLoop

end LuaBackend.Expr
