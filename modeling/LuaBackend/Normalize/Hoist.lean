import LuaBackend.Tree.Query

/-!
# What has to be hoisted

`Expr.hoists` says from the shape of a tree alone whether taking its
value needs statements of its own, which would have to run before the
statement that uses the value.
-/

namespace LuaBackend

/-- A method with a Lua name of its own is taken as a value. Such a value
becomes a function that passes its arguments on. -/
def MemberRef.isForwarded (ref : MemberRef) : Bool :=
  ref.isMethod && ref.native.isSome
    && (ref.access = .inst || ref.access = .static || ref.access = .anon)

namespace Expr

/-- The value a node leaves behind once its statements have been hoisted
is stable. -/
def leavesStable (e : Expr) : Bool :=
  match e.bare with
  | field _ _ ref _ => ref.isForwarded || ref.access = .enumCtor
  | e => e.isStable

mutual

/-- Taking the value of a node needs statements. The callee of a call is
not taken as a value if it is a member; only its receiver is. -/
def hoists : Expr → Bool
  | omitted | const .. | .local .. | typeRef .. | ident .. | function .. => false
  | block .. | ite .. | switch .. | tryCatch .. => true
  | varDecl .. | forIn .. | loop .. | ret .. | brk .. | cont .. | throw .. => true
  | field _ _ _ none => false
  | field _ _ ref (some receiver) =>
    receiver.hoists ||
      (if ref.isForwarded then !receiver.leavesStable
        else ref.access = .closure && !receiver.isPure)
  | call _ _ (field _ _ _ none) args => hoistsList args
  | call _ _ (field _ _ _ (some receiver)) args => receiver.hoists || hoistsList args
  | call _ _ callee args => callee.hoists || hoistsList args
  | index _ _ base position => base.hoists || position.hoists
  | paren _ _ inner => inner.hoists
  | annot _ _ _ inner => inner.hoists
  | object _ _ fields => hoistsFields fields
  | array _ _ elements => hoistsList elements
  | new _ _ _ _ args => hoistsList args
  | binary _ _ op lhs rhs => op.isMutating || lhs.hoists || rhs.hoists
  | unary _ _ op _ operand => op.isStep || operand.hoists
  | cast _ _ _ inner => inner.hoists
  | enumParam _ _ value _ _ => value.hoists
  | enumIndex _ value => value.hoists

def hoistsList : List Expr → Bool
  | [] => false
  | e :: rest => e.hoists || hoistsList rest

def hoistsFields : List (FieldInit Expr) → Bool
  | [] => false
  | ⟨_, value⟩ :: rest => value.hoists || hoistsFields rest

end

end Expr

end LuaBackend
