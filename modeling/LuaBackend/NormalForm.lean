import LuaBackend.Diagnostic
import LuaBackend.Tree.Query

/-!
# Normal form

Lua has no statements inside expressions. A tree is in normal form when
every value position holds a plain value: no block, branch, switch or
try, no assignment, increment or `??`, no declaration, loop or jump.
Value positions are operands, arguments, conditions, callees, receivers,
initial values, and assigned, returned and thrown values. The body of a
function literal is a sequence of statements of its own.

`violation` finds the first place where a tree breaks this.
-/

namespace LuaBackend

/-- Where a node stands. -/
inductive Position where
  | statement
  | value
  /-- The left side of an assignment that begins at `loc`. -/
  | target (loc : Loc)
deriving DecidableEq, Inhabited

/-- A way of not being in normal form. -/
inductive Violation where
  /-- A node that is a statement stands where a value is wanted. -/
  | inValuePosition (node : Expr)
  /-- What is assigned to is not a place. -/
  | notALocation (loc : Loc)

/-- The word for a node that does not belong in a value position. -/
def Expr.statementWord : Expr → String
  | block .. => "block"
  | ite .. => "if"
  | switch .. => "switch"
  | tryCatch .. => "try"
  | loop .. | forIn .. => "loop"
  | varDecl .. => "local declaration"
  | ret .. => "return"
  | brk .. => "break"
  | cont .. => "continue"
  | throw .. => "throw"
  | binary .. => "assignment"
  | unary .. => "increment"
  | _ => "expression"

/-- The code of diagnostics about a broken invariant of the backend. -/
def internalCode : String := "L1002"

namespace Violation

/-- The wording of a violation. -/
def message : Violation → String
  | inValuePosition node => node.statementWord ++ " in value position after normalization"
  | notALocation _ => "assignment target is not a location"

/-- Where the violation is. -/
def loc : Violation → Loc
  | inValuePosition node => node.loc
  | notALocation loc => loc

/-- The violation as a diagnostic. -/
def diagnostic (v : Violation) : Diagnostic := .error v.loc v.message internalCode

end Violation

/-- Judges a plain value: fine as a statement or a value if its parts are,
never a place to assign to. -/
def Position.plain (position : Position) (parts : Option Violation) : Option Violation :=
  match position with
  | .statement | .value => parts
  | .target loc => some (.notALocation loc)

/-- Judges a node that only a statement position may hold. -/
def Position.statementOnly (position : Position) (node : Expr) (parts : Option Violation) :
    Option Violation :=
  match position with
  | .statement => parts
  | .value => some (.inValuePosition node)
  | .target loc => some (.notALocation loc)

namespace Expr

mutual

/-- The first violation at or below a node that stands in the given
position. -/
def violation (position : Position) : Expr → Option Violation
  | omitted | const .. | typeRef .. | ident .. => position.plain none
  | .local .. => none
  | field _ _ _ receiver => violationOption .value receiver
  | index _ _ base offset => (violation .value base).or (violation .value offset)
  | paren _ _ inner => violation position inner
  | annot _ _ _ inner => violation position inner
  | object _ _ fields => position.plain (violationFields fields)
  | array _ _ elements => position.plain (violationList .value elements)
  | call _ _ callee args =>
    position.plain ((violation .value callee).or (violationList .value args))
  | new _ _ _ _ args => position.plain (violationList .value args)
  | cast _ _ _ inner => position.plain (violation .value inner)
  | enumParam _ _ value _ _ => position.plain (violation .value value)
  | enumIndex _ value => position.plain (violation .value value)
  | function _ _ params _ body =>
    position.plain ((violationParams params).or (violationOption .statement body))
  | e@(binary _ _ op lhs rhs) =>
    if op.isAssignment then
      position.statementOnly e ((violation (.target lhs.loc) lhs).or (violation .value rhs))
    else if op = .nullCoalesce then
      position.plain (some (.inValuePosition e))
    else
      position.plain ((violation .value lhs).or (violation .value rhs))
  | e@(unary _ _ op _ operand) =>
    if op.isStep then position.statementOnly e (violation (.target operand.loc) operand)
    else position.plain (violation .value operand)
  | e@(varDecl _ _ init) => position.statementOnly e (violationOption .value init)
  | e@(block _ _ exprs) => position.statementOnly e (violationList .statement exprs)
  | e@(forIn _ _ iterator body) =>
    position.statementOnly e ((violation .value iterator).or (violationOption .statement body))
  | e@(ite _ _ cond onTrue onFalse) =>
    position.statementOnly e ((violation .value cond).or
      ((violationOption .statement onTrue).or (violationOption .statement onFalse)))
  | e@(loop _ _ cond body) =>
    position.statementOnly e ((violation .value cond).or (violationOption .statement body))
  | e@(switch _ _ subject cases default) =>
    position.statementOnly e ((violation .value subject).or
      ((violationCases cases).or (violationOption .statement default)))
  | e@(ret _ value) => position.statementOnly e (violationOption .value value)
  | e@(brk _) => position.statementOnly e none
  | e@(cont _) => position.statementOnly e none
  | e@(throw _ value) => position.statementOnly e (violation .value value)
  | e@(tryCatch _ _ body handlers) =>
    position.statementOnly e ((violationOption .statement body).or (violationHandlers handlers))

def violationList (position : Position) : List Expr → Option Violation
  | [] => none
  | e :: rest => (violation position e).or (violationList position rest)

def violationOption (position : Position) : Option Expr → Option Violation
  | none => none
  | some e => violation position e

def violationFields : List (FieldInit Expr) → Option Violation
  | [] => none
  | ⟨_, value⟩ :: rest => (violation .value value).or (violationFields rest)

def violationParams : List (Param Expr) → Option Violation
  | [] => none
  | ⟨_, _, default⟩ :: rest => (violationOption .value default).or (violationParams rest)

def violationCases : List (Case Expr) → Option Violation
  | [] => none
  | ⟨values, body⟩ :: rest =>
    (violationList .value values).or ((violationOption .statement body).or (violationCases rest))

def violationHandlers : List (Handler Expr) → Option Violation
  | [] => none
  | ⟨_, body⟩ :: rest => (violationOption .statement body).or (violationHandlers rest)

end

/-- A sequence of statements is in normal form. -/
def InNormalForm (e : Expr) : Prop := e.violation .statement = none

end Expr

end LuaBackend
