import LuaBackend.Tree.Basic

/-!
# Queries on typed trees

Questions about the shape of a tree that the passes ask: which nodes
stand directly below a node, whether evaluating a node can be observed,
whether it gives the same value wherever it is evaluated.
-/

namespace LuaBackend

/-- The operator stores into its left side, or decides by null whether to
evaluate its right side. -/
def BinaryOp.isMutating : BinaryOp → Bool
  | .assign | .compound _ | .nullCoalesce => true
  | _ => false

namespace Expr

/-- The nodes directly below a node, in the order in which they are
written. -/
def children : Expr → List Expr
  | omitted | const .. | .local .. | typeRef .. | brk .. | cont .. | ident .. => []
  | field _ _ _ receiver => receiver.toList
  | index _ _ base position => [base, position]
  | paren _ _ inner => [inner]
  | object _ _ fields => fields.map FieldInit.value
  | array _ _ elements => elements
  | call _ _ callee args => callee :: args
  | new _ _ _ _ args => args
  | binary _ _ _ lhs rhs => [lhs, rhs]
  | unary _ _ _ _ operand => [operand]
  | function _ _ params _ body => params.filterMap Param.default ++ body.toList
  | varDecl _ _ init => init.toList
  | block _ _ exprs => exprs
  | forIn _ _ iterator body => iterator :: body.toList
  | ite _ _ cond onTrue onFalse => cond :: (onTrue.toList ++ onFalse.toList)
  | loop _ _ cond body => cond :: body.toList
  | switch _ _ subject cases default =>
    subject :: (cases.flatMap (fun c => c.values ++ c.body.toList) ++ default.toList)
  | ret _ value => value.toList
  | throw _ value => [value]
  | cast _ _ _ inner => [inner]
  | annot _ _ _ inner => [inner]
  | tryCatch _ _ body handlers => body.toList ++ handlers.filterMap Handler.body
  | enumParam _ _ value _ _ => [value]
  | enumIndex _ value => [value]

/-- A node that can stand for its value but is written as statements:
a block, a branch, a switch or a try. -/
def isBlockLike : Expr → Bool
  | block .. | ite .. | switch .. | tryCatch .. => true
  | _ => false

/-- A node that sends control elsewhere. -/
def isTransfer : Expr → Bool
  | ret .. | brk .. | cont .. | throw .. => true
  | _ => false

/-- A node that declares a local or repeats something. -/
def isDeclOrLoop : Expr → Bool
  | varDecl .. | loop .. | forIn .. => true
  | _ => false

/-- An operation that stores a value or hides a decision on null. -/
def isMutating : Expr → Bool
  | binary _ _ op _ _ => op.isMutating
  | unary _ _ op _ _ => op.isStep
  | _ => false

/-- A node that cannot be written where Lua wants a value. -/
def isStatementOnly (e : Expr) : Bool :=
  e.isBlockLike || e.isMutating || e.isTransfer || e.isDeclOrLoop

/-- The node inside parentheses and annotations. -/
def bare : Expr → Expr
  | paren _ _ inner => inner.bare
  | annot _ _ _ inner => inner.bare
  | e => e

/-- The constant null, seen through parentheses, annotations and
unchecked casts. -/
def isNull : Expr → Bool
  | paren _ _ inner => inner.isNull
  | annot _ _ _ inner => inner.isNull
  | cast _ _ none inner => inner.isNull
  | const _ _ .null => true
  | _ => false

/-- Evaluating the node cannot be observed. Reading a local, a member or
an element is not observable; calling, allocating and storing are. A
function literal runs nothing. -/
def isPure : Expr → Bool
  | omitted | const .. | .local .. | typeRef .. | function .. => true
  | field _ _ _ none => true
  | field _ _ _ (some receiver) => receiver.isPure
  | index _ _ base position => base.isPure && position.isPure
  | paren _ _ inner => inner.isPure
  | annot _ _ _ inner => inner.isPure
  | enumParam _ _ value _ _ => value.isPure
  | enumIndex _ value => value.isPure
  | cast _ _ none inner => inner.isPure
  | binary _ _ op lhs rhs => !op.isMutating && lhs.isPure && rhs.isPure
  | unary _ _ op _ operand => !op.isStep && operand.isPure
  | _ => false

/-- The node gives the same value wherever in a sequence of statements it
is evaluated. A local of the program does not, because a statement in
between may assign it. -/
def isStable : Expr → Bool
  | paren _ _ inner => inner.isStable
  | annot _ _ _ inner => inner.isStable
  | omitted | const .. | typeRef .. | function .. => true
  | .local _ var => var.isTemp
  | field _ _ ref _ => ref.access = .enumCtor
  | _ => false

/-- The constant `super`, possibly parenthesized. -/
def isSuper (e : Expr) : Bool :=
  match e.bare with
  | const _ _ .super => true
  | _ => false

/-- The text of a string constant, possibly parenthesized. -/
def stringConst? (e : Expr) : Option String :=
  match e.bare with
  | const _ _ (.string text) => some text
  | _ => none

/-- There is no branch, or it is a block with nothing in it. -/
def isEmptyBranch : Option Expr → Bool
  | none => true
  | some e =>
    match e.bare with
    | block _ _ [] => true
    | _ => false

end Expr

end LuaBackend
