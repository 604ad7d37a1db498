import LuaBackend.Tree.Query
import LuaBackend.Tree.Rebuild
import LuaBackend.Types.Nullability

/-!
# Folding comparisons with null

A comparison with null is decided before the program runs when both
sides are null, or when the other side can be seen not to be: its type
does not admit null, and evaluating it cannot be observed. Such a
comparison becomes a truth value at the same position. Folding works from
below, so a comparison whose operand has just been decided is looked at
with the decided operand.
-/

namespace LuaBackend.Nulls

/-- The outcome of a comparison for equality with null, if it is known.
`equal` says whether the comparison asks for equality. -/
def decide? (admits : Nullability) (equal : Bool) (lhs rhs : Expr) : Option Bool :=
  if lhs.isNull && rhs.isNull then some equal
  else if !lhs.isNull && !rhs.isNull then none
  else
    let other := if lhs.isNull then rhs else lhs
    if other.type.isUntyped || admits other.type || !other.isPure then none
    else some (!equal)

/-- The outcome of a node that is a decided comparison. -/
def outcome? (admits : Nullability) : Expr → Option Bool
  | .binary _ _ .eq lhs rhs => decide? admits true lhs rhs
  | .binary _ _ .ne lhs rhs => decide? admits false lhs rhs
  | _ => none

/-- Replaces a decided comparison by its outcome, and counts it. -/
def foldNode (admits : Nullability) (e : Expr) : StateM Nat Expr := do
  match outcome? admits e with
  | some value =>
    modify (· + 1)
    return .boolLit e.loc value
  | none => return e

/-- Replaces all decided comparisons of a tree. The state counts them. -/
def fold (admits : Nullability) (e : Expr) : StateM Nat Expr :=
  e.retyped.bottomUp (foldNode admits)

/-- The tree with all decided comparisons replaced. -/
def folded (admits : Nullability) (e : Expr) : Expr := ((fold admits e).run 0).1

end LuaBackend.Nulls
