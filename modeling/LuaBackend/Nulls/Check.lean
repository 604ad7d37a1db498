import LuaBackend.Diagnostic
import LuaBackend.Tree.Decl
import LuaBackend.Tree.Query
import LuaBackend.Types.Nullability

/-!
# Null where it does not belong

The literal null must not be assigned, passed, returned or set as an
initial value where the type does not admit it. Violations are found in
the order in which they are written. Values that merely may turn out to
be null are not looked at.
-/

namespace LuaBackend.Nulls

/-- What a value is used for. -/
inductive Use where
  | assigned
  | initializer
  | argument
  | returned
  | memberInit
deriving DecidableEq, Inhabited

/-- The words for a use. -/
def Use.text : Use → String
  | assigned => "assigned value"
  | initializer => "initializer"
  | argument => "argument"
  | returned => "return value"
  | memberInit => "field initializer"

/-- Null used where the type does not admit it. -/
structure Violation where
  use : Use
  target : Ty
  loc : Loc
deriving Inhabited

/-- The code of diagnostics about null. -/
def code : String := "L2001"

/-- The violation as a diagnostic. -/
def Violation.diagnostic (severity : Severity) (v : Violation) : Diagnostic :=
  ⟨severity, "null used as " ++ v.use.text ++ " of non-nullable type '" ++ v.target.text ++ "'",
    v.loc, code⟩

/-- The violation, if there is one, of using a value where a type is
expected. Where no type is known anything may be used. -/
def expect (admits : Nullability) (use : Use) (value : Expr) (target : Ty) : List Violation :=
  if target.isUntyped || !value.isNull || admits target then [] else [⟨use, target, value.loc⟩]

/-- Violations among the arguments for the parameters from a position on.
Optional parameters take null. -/
def expectArgsFrom (admits : Nullability) (signature : Ty) :
    Nat → List Expr → List Ty → List Violation
  | position, arg :: args, param :: params =>
    (if signature.isOptional position then [] else expect admits .argument arg param)
      ++ expectArgsFrom admits signature (position + 1) args params
  | _, _, _ => []

/-- Violations among the arguments of a call. -/
def expectArgs (admits : Nullability) (args : List Expr) (signature : Ty) : List Violation :=
  let signature := signature.unwrap
  expectArgsFrom admits signature 0 args signature.params

/-- The violation of the node itself. `result` is the type its function
has to return. -/
def ownViolations (admits : Nullability) (result : Ty) : Expr → List Violation
  | .binary _ _ .assign lhs rhs => expect admits .assigned rhs lhs.type
  | .varDecl _ var (some init) => expect admits .initializer init var.type
  | .call _ _ callee args => expectArgs admits args callee.type
  | .new _ _ _ ctorType args => expectArgs admits args ctorType
  | .ret _ (some value) => expect admits .returned value result
  | _ => []

mutual

/-- All violations of a tree, in the order in which they are written.
`result` is the type that returns outside function literals have to
respect. -/
def violations (admits : Nullability) (result : Ty) : Expr → List Violation
  | .omitted | .const .. | .local .. | .typeRef .. | .brk .. | .cont .. | .ident .. => []
  | .field _ _ _ receiver => violationsOption admits result receiver
  | .index _ _ base position =>
    violations admits result base ++ violations admits result position
  | .paren _ _ inner => violations admits result inner
  | .object _ _ fields => violationsFields admits result fields
  | .array _ _ elements => violationsList admits result elements
  | e@(.call _ _ callee args) =>
    ownViolations admits result e ++ violations admits result callee
      ++ violationsList admits result args
  | e@(.new _ _ _ _ args) => ownViolations admits result e ++ violationsList admits result args
  | e@(.binary _ _ _ lhs rhs) =>
    ownViolations admits result e ++ violations admits result lhs ++ violations admits result rhs
  | .unary _ _ _ _ operand => violations admits result operand
  | .function _ _ params inner body =>
    violationsParams admits result params ++ violationsOption admits inner body
  | e@(.varDecl _ _ init) => ownViolations admits result e ++ violationsOption admits result init
  | .block _ _ exprs => violationsList admits result exprs
  | .forIn _ _ iterator body =>
    violations admits result iterator ++ violationsOption admits result body
  | .ite _ _ cond onTrue onFalse =>
    violations admits result cond ++ violationsOption admits result onTrue
      ++ violationsOption admits result onFalse
  | .loop _ _ cond body => violations admits result cond ++ violationsOption admits result body
  | .switch _ _ subject cases default =>
    violations admits result subject ++ violationsCases admits result cases
      ++ violationsOption admits result default
  | e@(.ret _ value) => ownViolations admits result e ++ violationsOption admits result value
  | .throw _ value => violations admits result value
  | .cast _ _ _ inner => violations admits result inner
  | .annot _ _ _ inner => violations admits result inner
  | .tryCatch _ _ body handlers =>
    violationsOption admits result body ++ violationsHandlers admits result handlers
  | .enumParam _ _ value _ _ => violations admits result value
  | .enumIndex _ value => violations admits result value

def violationsList (admits : Nullability) (result : Ty) : List Expr → List Violation
  | [] => []
  | e :: rest => violations admits result e ++ violationsList admits result rest

def violationsOption (admits : Nullability) (result : Ty) : Option Expr → List Violation
  | none => []
  | some e => violations admits result e

def violationsFields (admits : Nullability) (result : Ty) :
    List (FieldInit Expr) → List Violation
  | [] => []
  | ⟨_, value⟩ :: rest => violations admits result value ++ violationsFields admits result rest

/-- Violations among default values, which belong to the function around
the literal. -/
def violationsParams (admits : Nullability) (result : Ty) : List (Param Expr) → List Violation
  | [] => []
  | ⟨_, _, default⟩ :: rest =>
    violationsOption admits result default ++ violationsParams admits result rest

def violationsCases (admits : Nullability) (result : Ty) : List (Case Expr) → List Violation
  | [] => []
  | ⟨values, body⟩ :: rest =>
    violationsList admits result values ++ violationsOption admits result body
      ++ violationsCases admits result rest

def violationsHandlers (admits : Nullability) (result : Ty) :
    List (Handler Expr) → List Violation
  | [] => []
  | ⟨_, body⟩ :: rest =>
    violationsOption admits result body ++ violationsHandlers admits result rest

end

/-- Violations in a member: its initial value against its type, and then
its code. -/
def memberViolations (admits : Nullability) (m : Member) : List Violation :=
  match m.code with
  | none => []
  | some code =>
    (if m.kind = .var then expect admits .memberInit code m.type else [])
      ++ violations admits .untyped code

/-- Violations in a class. Code outside the program is not looked at. -/
def classViolations (admits : Nullability) (d : ClassDecl) : List Violation :=
  if d.isExternal then []
  else (d.ctor.toList ++ d.fields ++ d.statics).flatMap (memberViolations admits)

/-- Violations in a declaration. -/
def declViolations (admits : Nullability) : Decl → List Violation
  | .cls decl => classViolations admits decl
  | .abstract _ _ _ (some impl) => classViolations admits impl
  | _ => []

end LuaBackend.Nulls
