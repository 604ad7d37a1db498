import LuaBackend.Temporary
import LuaBackend.Tree.Build
import LuaBackend.Tree.Query

/-!
# Hoisted values and temporaries

Normalization runs with a supply of temporaries, which it keeps also when
it fails. It yields values together with the statements that have to run
before them. A value that those statements could disturb is moved into a
temporary first.
-/

namespace LuaBackend.Normalize

/-- Why normalization fails. -/
inductive Fault where
  /-- There are no temporaries left. -/
  | temporaries (fault : TempFault)
  /-- A case value needed statements although none were expected. -/
  | unexpectedStatements
deriving DecidableEq, Inhabited

/-- The wording of a failure. -/
def Fault.message : Fault → String
  | temporaries fault => fault.message
  | unexpectedStatements =>
    "switch case value hoisted statements wouldHoist did not predict"

/-- A computation that takes temporaries from a supply. -/
abbrev Norm := EStateM Fault TempSupply

/-- Takes the next temporary. -/
def freshTemp (type : Ty) : Norm Var := fun supply =>
  match supply.fresh type with
  | .ok (var, rest) => .ok var rest
  | .error fault => .error (.temporaries fault) supply

/-- Takes one temporary for each type. -/
def freshTemps : List Ty → Norm (List Var)
  | [] => pure []
  | type :: rest => do
    let var ← freshTemp type
    return var :: (← freshTemps rest)

/-- A value, and the statements that have to run before it. -/
structure Hoisted where
  stmts : List Expr
  value : Expr
deriving Inhabited

/-- Moves a value into a temporary where `needed`. -/
def spill (needed : Bool) (value : Expr) : Norm Hoisted := do
  if needed then
    let t ← freshTemp value.type
    return ⟨[.varDecl value.loc t (some value)], .local value.loc t⟩
  else
    return ⟨[], value⟩

/-- Moves all values into temporaries that later statements could
disturb: the declarations, and the values in their places. -/
def spillUnstable : List Expr → Norm (List Expr × List Expr)
  | [] => pure ([], [])
  | value :: rest => do
    let h ← spill (!value.isStable) value
    let (stmts, values) ← spillUnstable rest
    return (h.stmts ++ stmts, h.value :: values)

/-- Takes values from left to right, after some that have been taken
already. Where taking one needs statements, the ones before it are moved
out of their way. Yields the statements and all values. -/
def operandsAfter (done : List Expr) : List (Norm Hoisted) → Norm (List Expr × List Expr)
  | [] => pure ([], done)
  | item :: rest => do
    let h ← item
    if h.stmts.isEmpty then
      operandsAfter (done ++ [h.value]) rest
    else
      let (spills, done) ← spillUnstable done
      let (stmts, values) ← operandsAfter (done ++ [h.value]) rest
      return (spills ++ h.stmts ++ stmts, values)

/-- Takes values from left to right. -/
def operands (items : List (Norm Hoisted)) : Norm (List Expr × List Expr) :=
  operandsAfter [] items

/-- Takes two values, the first one first. -/
def operandPair (first second : Norm Hoisted) : Norm (List Expr × Expr × Expr) := do
  let a ← first
  let b ← second
  if b.stmts.isEmpty then
    return (a.stmts, a.value, b.value)
  else
    let s ← spill (!a.value.isStable) a.value
    return (a.stmts ++ s.stmts ++ b.stmts, s.value, b.value)

/-- Which parts of an assigned place are moved into temporaries. -/
inductive Spill where
  /-- None of them. -/
  | none
  /-- Those whose evaluation can be observed. -/
  | impure
  /-- Those that later statements could disturb. -/
  | unstable
deriving DecidableEq, Inhabited

/-- The part has to be moved. -/
def Spill.needs (how : Spill) (value : Expr) : Bool :=
  match how with
  | .none => false
  | .impure => !value.isPure
  | .unstable => !value.isStable

end LuaBackend.Normalize
