import LuaBackend.Diagnostic
import LuaBackend.Emit.Fault
import LuaBackend.NormalForm
import LuaBackend.Normalize.Supply

/-!
# Failures of a compilation

A declaration fails on a construct without a rendering, on a broken
invariant of the backend, or because of a hook. All of these become
diagnostics, except the failure of a hook for reasons of its own, which
ends the whole run.
-/

namespace LuaBackend.Compile

/-- What sort of invariant was broken. -/
inductive Misuse where
  /-- Something was asked for that cannot be done now. -/
  | state
  /-- Something was asked for with an argument that makes no sense. -/
  | argument
  /-- A number was out of range. -/
  | range
deriving DecidableEq, Inhabited

/-- Why compiling a unit fails. -/
inductive Failure where
  /-- A construct without a rendering. -/
  | unsupported (message : String) (loc : Loc)
  /-- A tree that should be in normal form is not. -/
  | notNormal (violation : Violation)
  /-- A broken invariant. -/
  | internal (misuse : Misuse) (message : String)
  /-- A hook failed for reasons of its own. -/
  | foreign (message : String)

namespace Failure

/-- The wording of a failure. -/
def message : Failure → String
  | unsupported message _ => message
  | notNormal violation => violation.message
  | internal _ message => message
  | foreign message => message

/-- The failure for a fault of normalization. -/
def ofNormalize (fault : Normalize.Fault) : Failure := .internal .state fault.message

/-- The failure for a fault of writing. -/
def ofEmit (fault : Emit.Fault) : Failure :=
  match fault with
  | .unsupported _ loc => .unsupported fault.message loc
  | .operatorWithoutValue | .unlabelledContinue => .internal .state fault.message
  | .placeholderOverflow => .internal .range fault.message

/-- The diagnostic for a failure of a unit at the given position; none if
the failure ends the run. -/
def diagnostic? (loc : Loc) : Failure → Option Diagnostic
  | unsupported message loc => some (.error loc message Emit.unsupportedCode)
  | notNormal violation => some violation.diagnostic
  | internal _ message => some (.error loc message internalCode)
  | foreign _ => none

end Failure

end LuaBackend.Compile
