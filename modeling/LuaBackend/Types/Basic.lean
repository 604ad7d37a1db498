import LuaBackend.Types.Path

/-!
# Types of expressions

Every node of a typed tree carries the type the front end found for it,
or none. A type has a kind, a path where the kind has one, arguments, and
flags that mark parameters of a function as optional. A nullable type has
what it wraps as its argument; a function type has its parameters and
then its result.

The queries are total: asking a type for a part that its kind does not
have gives `untyped`, or no parameters.
-/

namespace LuaBackend

open Text

/-- What sort of type it is. -/
inductive TypeKind where
  | void
  | bool
  | int
  | float
  | string
  | dynamic
  | null
  | inst
  | enum
  | anon
  | function
  | typeParam
  | unknown
deriving DecidableEq, Inhabited

/-- A type, or the absence of one. -/
inductive Ty where
  /-- No type was found. -/
  | untyped
  /-- A type of the given kind. -/
  | of (kind : TypeKind) (path : TypePath) (args : List Ty) (optional : List Bool)
deriving Inhabited

namespace Ty

/-- A type that is nothing but its kind. -/
def simple (kind : TypeKind) : Ty := .of kind {} [] []

/-- The type of what has no value. -/
def void : Ty := simple .void

/-- The type of truth values. -/
def bool : Ty := simple .bool

/-- The type of integers. -/
def int : Ty := simple .int

/-- The type of floating-point numbers. -/
def float : Ty := simple .float

/-- The type of strings. -/
def string : Ty := simple .string

/-- The type of values that are checked at run time only. -/
def dynamic : Ty := simple .dynamic

/-- The type of anonymous objects. -/
def anon : Ty := simple .anon

/-- The values of a type, and null. -/
def nullable (inner : Ty) : Ty := .of .null {} [inner] []

/-- A class with its type arguments. -/
def inst (path : TypePath) (args : List Ty) : Ty := .of .inst path args []

/-- An array. -/
def array (element : Ty) : Ty := inst ⟨[], "Array"⟩ [element]

/-- An enum. -/
def enum (path : TypePath) : Ty := .of .enum path [] []

/-- A function. A result that was not given is `void`. -/
def function (params : List Ty) (result : Ty) (optional : List Bool) : Ty :=
  let result := match result with
    | .untyped => void
    | ty => ty
  .of .function {} (params ++ [result]) optional

/-- The kind, if there is a type. -/
def kind? : Ty → Option TypeKind
  | .untyped => none
  | .of kind _ _ _ => some kind

/-- There is a type, and it has the given kind. -/
def isKind (kind : TypeKind) (ty : Ty) : Bool := ty.kind? == some kind

/-- There is no type. -/
def isUntyped : Ty → Bool
  | .untyped => true
  | .of .. => false

/-- What a nullable type wraps. -/
def inner : Ty → Ty
  | .of .null _ (arg :: _) _ => arg
  | _ => .untyped

/-- The result of a function type. -/
def result : Ty → Ty
  | .of .function _ args _ => args.getLastD .untyped
  | _ => .untyped

/-- The parameters of a function type. -/
def params : Ty → List Ty
  | .of .function _ args _ => args.dropLast
  | _ => []

/-- The parameter at a position is flagged as optional. -/
def isOptional (ty : Ty) (position : Nat) : Bool :=
  match ty with
  | .untyped => false
  | .of _ _ _ optional => optional.getD position false

mutual

/-- A type without the nullable layers around it. A nullable layer around
no type is kept. -/
def unwrap : Ty → Ty
  | .of .null path args optional => unwrapArgs (.of .null path args optional) args
  | ty => ty

/-- Descends into the first argument of a nullable type, or stops at the
type itself when that argument is missing. -/
def unwrapArgs (whole : Ty) : List Ty → Ty
  | [] => whole
  | .untyped :: _ => whole
  | arg :: _ => unwrap arg

end

/-- A floating-point number, possibly nullable. -/
def isFloat (ty : Ty) : Bool := ty.unwrap.isKind .float

/-- A string, possibly nullable. -/
def isString (ty : Ty) : Bool := ty.unwrap.isKind .string

/-- A path, followed by its arguments in angle brackets if it has any. -/
def applied (path : TypePath) : List String → String
  | [] => path.dotted
  | args => path.dotted ++ "<" ++ ", ".intercalate args ++ ">"

/-- Parameters, the optional ones with a question mark. -/
def marked : List Bool → List String → List String
  | true :: flags, param :: params => ("?" ++ param) :: marked flags params
  | false :: flags, param :: params => param :: marked flags params
  | [], params => params
  | _, [] => []

mutual

/-- The type as diagnostics and outlines write it. -/
def text : Ty → String
  | .untyped => "<unknown>"
  | .of .void _ _ _ => "Void"
  | .of .bool _ _ _ => "Bool"
  | .of .int _ _ _ => "Int"
  | .of .float _ _ _ => "Float"
  | .of .string _ _ _ => "String"
  | .of .dynamic _ _ _ => "Dynamic"
  | .of .null _ args _ => "Null<" ++ (texts args).headD "<unknown>" ++ ">"
  | .of .inst path args _ => applied path (texts args)
  | .of .enum path args _ => applied path (texts args)
  | .of .typeParam path args _ => applied path (texts args)
  | .of .anon _ _ _ => "\x7b\x7d"
  | .of .function _ args optional =>
    let texts := texts args
    "(" ++ ", ".intercalate (marked optional texts.dropLast) ++ ") -> "
      ++ texts.getLastD "<unknown>"
  | .of .unknown _ _ _ => "Unknown"

def texts : List Ty → List String
  | [] => []
  | ty :: rest => ty.text :: texts rest

end

end Ty

end LuaBackend
