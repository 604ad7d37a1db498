import LuaBackend.Types.Basic

/-!
# Which types admit null

A nullability policy says of each type whether null belongs to it. The
built-in policy comes in two strengths, which differ on reference types.
-/

namespace LuaBackend

/-- Says of a type whether null belongs to it. -/
abbrev Nullability := Ty → Bool

namespace Nullability

/-- The built-in policy. Nullable, dynamic, open and missing types admit
null, the basic types never do, and reference types do unless the policy
is strict. -/
def builtin (strict : Bool) : Nullability
  | .untyped => true
  | .of kind _ _ _ =>
    match kind with
    | .null | .dynamic | .typeParam | .unknown => true
    | .void | .bool | .int | .float => false
    | .string | .inst | .enum | .anon | .function => !strict

/-- The policy under which exactly the types of the listed kinds admit
null. -/
def ofKinds (kinds : List TypeKind) : Nullability
  | .untyped => false
  | .of kind _ _ _ => kinds.contains kind

end Nullability

end LuaBackend
