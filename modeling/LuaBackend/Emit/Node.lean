import LuaBackend.Emit.Placeholder
import LuaBackend.Emit.Context
import LuaBackend.Tree.Build
import LuaBackend.Tree.Search

/-!
# Writing, node by node

A node can be written for its value, as a statement, as a body, and as
the branch after `else`. `Emission` answers all of these, and each kind
of node has a function that makes the emission of the node from the
emissions of its parts.

Lua lacks some control flow of the source language. A continue is a jump
to a label at the end of the loop body. A try is a protected call of a
function; what would leave its body returns a mark instead, and the code
after the call acts on the mark.

Parts are written from left to right. The order shows in the numbers of
labels, and in which of two failures is the one reported. For the operands
of an operator, a base and its position, and a callee and its arguments
another order would be as good: `binary`, `update`, `operation`, `index` and
`callValue` fix this one.
-/

namespace LuaBackend.Emit

/-- What follows the first arm of a branch. -/
structure ElseTail where
  arms : List (Lua.Arm Lua.Expr Lua.Stmt) := []
  otherwise : Option Lua.Block := none

/-- What a node is written as, depending on where it stands. -/
structure Emission where
  /-- The node itself. -/
  source : Expr
  /-- Its value. -/
  value : EmitM Lua.Expr
  /-- The node as a statement, which may be the last of its block. -/
  stmt : (last : Bool) → EmitM Lua.Block
  /-- The node as a body, which more statements may follow: a block adds
  no scope. -/
  body : (followed : Bool) → EmitM Lua.Block
  /-- The node after `else`. -/
  orElse : EmitM ElseTail
  /-- What a member is accessed on, if the node is such an access. -/
  receiver : Option (EmitM Lua.Expr) := none

/-- How tightly the text of a node binds. -/
def precedence : Expr → Nat
  | .annot _ _ _ inner => precedence inner
  | .cast _ _ none inner => precedence inner
  | .binary _ type op lhs rhs => (Lua.rendering op lhs.type rhs.type type).precedence
  | .unary _ _ .not _ _ | .unary _ _ .neg _ _ => Lua.unaryPrecedence
  | .const _ _ (.int value) => if value < 0 then Lua.unaryPrecedence else Lua.atomPrecedence
  | .const _ _ (.float value) =>
    if value.isNegative && !value.isNaN then Lua.unaryPrecedence else Lua.atomPrecedence
  | _ => Lua.atomPrecedence

/-- The text of a node can be accessed or called without parentheses. -/
def isHead : Expr → Bool
  | .local .. | .field .. | .index .. | .paren .. | .object .. | .array .. | .typeRef .. | .new ..
  | .enumParam .. | .enumIndex .. => true
  | .call _ _ (.ident _ _ name) _ => name ≠ "__lua__"
  | .call .. => true
  | .const _ _ .this => true
  | .cast _ _ (some _) _ => true
  | .cast _ _ none inner => isHead inner
  | .annot _ _ _ inner => isHead inner
  | _ => false

namespace Emission

/-- A node that is written as a statement. -/
def ofStmt (source : Expr) (value : EmitM Lua.Expr) (stmt : (last : Bool) → EmitM Lua.Block) :
    Emission where
  source := source
  value := value
  stmt := stmt
  body followed := stmt (!followed)
  orElse := return { otherwise := some (← indented (stmt true)) }

/-- A node that is written as a statement and never as a value. -/
def stmtOnly (source : Expr) (stmt : (last : Bool) → EmitM Lua.Block) : Emission :=
  ofStmt source (unsupported (.statementInValue (valueWord source)) source.loc) stmt

/-- A node that is written as a value. As a statement its value goes to a
local that nobody reads. -/
def ofValue (source : Expr) (value : EmitM Lua.Expr) : Emission :=
  ofStmt source value fun _ => return [.localVar Lua.discard (some (← value))]

/-- A node that is written as a call, also as a statement. -/
def ofCall (source : Expr) (value : EmitM Lua.Expr) : Emission :=
  ofStmt source value fun _ => return [.call (← value)]

/-- The value as an operand of an operator, in parentheses where it binds
less tightly, or as tightly if it has to bind more. -/
def operand (e : Emission) (parent : Nat) (tighter : Bool) : EmitM Lua.Expr := do
  let v ← e.value
  let own := precedence e.source
  return if own < parent || (tighter && own = parent) then .paren v else v

/-- The value as something to access or call. -/
def head (e : Emission) : EmitM Lua.Expr := do
  let v ← e.value
  return if isHead e.source then v else .paren v

/-- The values of several nodes. -/
def values : List Emission → EmitM (List Lua.Expr)
  | [] => return []
  | e :: rest => do
    let v ← e.value
    return v :: (← values rest)

/-- The statements of an optional body. -/
def bodyOf (part : Option Emission) (followed : Bool) : EmitM Lua.Block :=
  match part with
  | none => return []
  | some part => part.body followed

/-- A constant. -/
def const (loc : Loc) (type : Ty) (value : Const) : Emission :=
  ofValue (.const loc type value) <|
    match value with
    | .int value => return .int value
    | .float value => return .float value
    | .string value => return .string value
    | .bool value => return .bool value
    | .null => return .nil
    | .this => return .name "self"
    | .super => unsupported .bareSuper loc

/-- A binary operation. -/
def operation (op : BinaryOp) (type : Ty) (lhs rhs : Emission) : EmitM Lua.Expr :=
  match Lua.rendering op lhs.source.type rhs.source.type type with
  | .helper name => do
    let l ← lhs.value
    let r ← rhs.value
    return .call (.name name) [l, r]
  | .operator op => do
    let l ← lhs.operand op.precedence op.isRightAssoc
    let r ← rhs.operand op.precedence (!op.isRightAssoc)
    return .binary op l r
  | .none => refuse .operatorWithoutValue

/-- A place changed by an operation on what it holds. -/
def update (op : BinaryOp) (type : Ty) (place operand : Emission) : EmitM Lua.Block := do
  let target ← place.value
  return [.assign target (← operation op type place operand)]

/-- A binary operator node. -/
def binary (loc : Loc) (type : Ty) (op : BinaryOp) (lhs rhs : Emission) : Emission :=
  let source := Expr.binary loc type op lhs.source rhs.source
  match op with
  | .assign => stmtOnly source fun _ => do
    let place ← lhs.value
    return [.assign place (← rhs.value)]
  | .compound op => stmtOnly source fun _ => update op type lhs rhs
  | .nullCoalesce => stmtOnly source fun _ => unsupported .nullCoalesceStatement loc
  | op => ofValue source (operation op type lhs rhs)

/-- A unary operator node. -/
def unary (loc : Loc) (type : Ty) (op : UnaryOp) (isPost : Bool) (e : Emission) : Emission :=
  let source := Expr.unary loc type op isPost e.source
  match op with
  | .not => ofValue source do return .not (← e.operand Lua.unaryPrecedence false)
  | .neg => ofValue source do return .neg (← e.operand Lua.unaryPrecedence false)
  | .negBits => ofValue source do return .call (.name "_hx_bit.bnot") [← e.value]
  | .increment | .decrement => stmtOnly source fun _ =>
    update op.stepOp e.source.type e (const loc .int (.int 1))

/-- The Lua name of the table that holds the methods of a class. -/
def prototype (cls : String) : String := cls ++ ".prototype"

/-- A method bound to an object. -/
def bind (object method : Lua.Expr) : Lua.Expr := .call (.name "_hx_bind") [object, method]

/-- The value of a member. What a class inherits lives on the object
itself, so `super` is the object, except that a bound method is the one
of the superclass. -/
def fieldValue (loc : Loc) (ref : MemberRef) (receiver : Option Emission) : EmitM Lua.Expr :=
  if ref.access = .static || ref.access = .enumCtor then
    if ref.owner.isEmpty then unsupported .staticWithoutOwner loc
    else return .member (.name ref.owner.global) ref.target
  else
    match receiver with
    | none => unsupported .memberWithoutReceiver loc
    | some receiver => do
      if receiver.source.isSuper then
        let base := (← EmitM.scope).base
        if base.isEmpty then unsupported .superWithoutBase loc
        else if ref.access = .closure then
          return bind (.name "self") (.member (.name (prototype base)) ref.target)
        else return .member (.name "self") ref.target
      else
        let object ← receiver.head
        match ref.access with
        | .dynamic => return .key object ref.target
        | .closure => return bind object (.member object ref.target)
        | _ => return .member object ref.target

/-- Access to a member. -/
def field (loc : Loc) (type : Ty) (ref : MemberRef) (receiver : Option Emission) : Emission :=
  { ofValue (.field loc type ref (receiver.map source)) (fieldValue loc ref receiver) with
    receiver := receiver.map head }

/-- Access to an element. -/
def index (loc : Loc) (type : Ty) (base position : Emission) : Emission :=
  ofValue (.index loc type base.source position.source) do
    let object ← base.head
    return .index object (← position.value)

/-- A parameter of an enum value, which stands after the name and the
index of the constructor. -/
def enumParam (loc : Loc) (type : Ty) (ctor : String) (slot : UInt32) (value : Emission) :
    Emission :=
  ofValue (.enumParam loc type value.source ctor slot) do
    return .index (← value.head) (.int (2 + slot).toNat)

/-- The index of the constructor of an enum value. -/
def enumIndex (loc : Loc) (value : Emission) : Emission :=
  ofValue (.enumIndex loc value.source) do
    return .index (← value.head) (.int 1)

/-- Parentheses. -/
def paren (loc : Loc) (type : Ty) (inner : Emission) : Emission :=
  { inner with
    source := .paren loc type inner.source
    value := do return .paren (← inner.value) }

/-- An annotation, which is not written. -/
def annot (loc : Loc) (type : Ty) (name : String) (inner : Emission) : Emission :=
  { inner with source := .annot loc type name inner.source }

/-- A cast. Only a checked one is written. -/
def cast (loc : Loc) (type : Ty) (checked : Option TypePath) (inner : Emission) : Emission :=
  ofValue (.cast loc type checked inner.source) <|
    match checked with
    | none => inner.value
    | some path => do return .call (.name "_hx_cast") [← inner.value, .name path.global]

/-- The values of an object literal. -/
def fieldValues : List (FieldInit Emission) → EmitM (List (FieldInit Lua.Expr))
  | [] => return []
  | ⟨name, e⟩ :: rest => do
    let v ← e.value
    return ⟨name, v⟩ :: (← fieldValues rest)

/-- An object literal. -/
def object (loc : Loc) (type : Ty) (fields : List (FieldInit Emission)) : Emission :=
  ofValue (.object loc type (fields.map fun f => ⟨f.name, f.value.source⟩)) do
    return .object (← fieldValues fields)

/-- An array literal. -/
def array (loc : Loc) (type : Ty) (elements : List Emission) : Emission :=
  ofValue (.array loc type (elements.map source)) do return .array (← values elements)

/-- The making of an object. -/
def new (loc : Loc) (type : Ty) (cls : TypePath) (ctorType : Ty) (args : List Emission) :
    Emission :=
  ofCall (.new loc type cls ctorType (args.map source)) do
    return .call (.name (cls.global ++ ".new")) (← values args)

/-- Gives default values to the parameters that have one. -/
def defaults : List (Param Emission) → EmitM Lua.Block
  | [] => return []
  | ⟨_, _, none⟩ :: rest => defaults rest
  | ⟨var, _, some e⟩ :: rest => do
    let v ← e.value
    return .default (Lua.localName var) v :: (← defaults rest)

/-- A function with the given parameters in front of its own. -/
def functionWith (first : List String) (params : List (Param Emission))
    (body : Option Emission) : EmitM Lua.Expr := do
  let stmts ← withinFunction <| indented do
    let stmts ← defaults params
    return stmts ++ (← bodyOf body false)
  return .function (first ++ params.map fun p => Lua.localName p.var) stmts

/-- A function literal. -/
def function (source : Expr) (params : List (Param Emission)) (body : Option Emission) :
    Emission :=
  ofValue source (functionWith [] params body)

/-- Given code with its placeholders filled in. -/
def fillCode (args : List Emission) : List CodePiece → EmitM (List (Lua.Piece Lua.Expr))
  | [] => return []
  | .char c :: rest => return .text (String.singleton c) :: (← fillCode args rest)
  | .overflow :: _ => refuse .placeholderOverflow
  | .arg position :: rest =>
    match args[position]? with
    | none => fillCode args rest
    | some e => do
      let v ← e.value
      return .code v :: (← fillCode args rest)

/-- A call of an intrinsic: code given as text, a global function, the
hash of a value, a function value. -/
def intrinsic (loc : Loc) (name : String) (nameLoc : Loc) (args : List Emission) :
    EmitM Lua.Expr :=
  if name = "__lua__" then
    match args.head?.bind fun e => e.source.stringConst? with
    | none => unsupported .codeWithoutText loc
    | some text => do return .verbatim (← fillCode args (codePieces args.length 0 text.toList))
  else if name = "__global__" then
    match args.head?.bind fun e => e.source.stringConst? with
    | none => unsupported .globalWithoutName loc
    | some text => do return .call (.name text) (← values args.tail)
  else if name = "__hash__" then
    match args with
    | [e] => do return .call (.name "_hx_hash") [← e.value]
    | _ => unsupported .hashArguments loc
  else if name = "__call__" then
    match args with
    | [] => unsupported .callWithoutFunction loc
    | f :: args => do
      let f ← f.head
      return .call f (← values args)
  else unsupported (.identifier name) nameLoc

/-- The member is called as a method of an object. -/
def isMethodCall (ref : MemberRef) : Bool :=
  (ref.isMethod && (ref.access = .inst || ref.access = .anon)) || ref.access = .closure

/-- A call of a value. -/
def callValue (callee : Emission) (args : List Emission) : EmitM Lua.Expr := do
  let f ← callee.head
  return .call f (← values args)

/-- A call of a member. A method of `super` is the one of the superclass,
called on the current object. -/
def callMember (loc : Loc) (callee : Emission) (ref : MemberRef) (receiver : Expr)
    (args : List Emission) : EmitM Lua.Expr := do
  if !isMethodCall ref then callValue callee args
  else if receiver.isSuper then
    let base := (← EmitM.scope).base
    if base.isEmpty then unsupported .superWithoutBase loc
    else return .callWithSelf (.member (.name (prototype base)) ref.target) (← values args)
  else
    match callee.receiver with
    | some object =>
      if Lua.isName ref.target then
        let object ← object
        return .method object ref.target (← values args)
      else callValue callee args
    | none => callValue callee args

/-- A call of the constructor of the superclass. -/
def callSuper (loc : Loc) (args : List Emission) : EmitM Lua.Expr := do
  let scope ← EmitM.scope
  if !scope.inCtor then unsupported .superCallOutsideCtor loc
  else if scope.base.isEmpty then unsupported .superCallWithoutBase loc
  else return .callWithSelf (.name (scope.base ++ ".super")) (← values args)

/-- A call. -/
def call (loc : Loc) (type : Ty) (callee : Emission) (args : List Emission) : Emission :=
  ofCall (.call loc type callee.source (args.map source)) <|
    match callee.source.bare with
    | .ident nameLoc _ name => intrinsic loc name nameLoc args
    | .const _ _ .super => callSuper loc args
    | .field _ _ ref (some receiver) => callMember loc callee ref receiver args
    | _ => callValue callee args

/-! ## Statements -/

/-- The statements of a sequence, which more may follow. -/
def sequence (followed : Bool) : List Emission → EmitM Lua.Block
  | [] => return []
  | [e] => e.stmt (!followed)
  | e :: f :: rest => do
    let stmts ← e.stmt false
    return stmts ++ (← sequence followed (f :: rest))

/-- The statements of a block that is called for its value: the last one
returns it, if it is a value and one is wanted. -/
def returning (wanted : Bool) : List Emission → EmitM Lua.Block
  | [] => return []
  | [e] =>
    if wanted && !e.source.bare.isStatementOnly then return [.ret (some (← e.value))]
    else e.stmt true
  | e :: f :: rest => do
    let stmts ← e.stmt false
    return stmts ++ (← returning wanted (f :: rest))

/-- A block. -/
def block (loc : Loc) (type : Ty) (exprs : List Emission) : Emission where
  source := .block loc type (exprs.map source)
  value := do
    let stmts ← withinFunction <| indented <|
      returning (!type.isUntyped && !type.isKind .void) exprs
    return .block stmts
  stmt _ :=
    if exprs.isEmpty then return []
    else return [.scope (← indented (sequence false exprs))]
  body followed := sequence followed exprs
  orElse :=
    let asBody : EmitM ElseTail := return { otherwise := some (← indented (sequence false exprs)) }
    match exprs with
    | [only] =>
      match only.source.bare with
      | .ite .. => only.orElse
      | _ => asBody
    | _ => asBody

/-- The declaration of a local. -/
def varDecl (loc : Loc) (var : Var) : Option Emission → Emission
  | none => stmtOnly (.varDecl loc var none) fun _ =>
    return [.localVar (Lua.localName var) none]
  | some init => stmtOnly (.varDecl loc var (some init.source)) fun _ =>
    return [.localVar (Lua.localName var) (some (← init.value))]

/-- A return with a value. One that is not the last statement of its block
needs a block of its own. -/
def returnStmt (last : Bool) (value : Option Lua.Expr) : Lua.Stmt :=
  if last then .ret value else .retInside value

/-- A return. -/
def ret (loc : Loc) : Option Emission → Emission
  | none => stmtOnly (.ret loc none) fun last => return [returnStmt last none]
  | some value => stmtOnly (.ret loc (some value.source)) fun last =>
    return [returnStmt last (some (← value.value))]

/-- A jump, as a statement that may be the last of its block. -/
def jump (source : Expr) (stmt : EmitM Lua.Stmt) : Emission :=
  stmtOnly source fun last => do
    match ← stmt with
    | .ret value => return [returnStmt last value]
    | s => return [s]

/-- A throw. -/
def throw (loc : Loc) (value : Emission) : Emission :=
  stmtOnly (.throw loc value.source) fun _ =>
    return [.run (.call (.name "error") [← value.value, .int 0])]

/-- The branch after the first arm. -/
def elseTail : Option Emission → EmitM ElseTail
  | none => return {}
  | some e => if Expr.isEmptyBranch (some e.source) then return {} else e.orElse

/-- A branch whose first arm may be empty. -/
def branch (cond : Emission) (onTrue onFalse : Option Emission) : EmitM Lua.Block := do
  let c ← cond.value
  let noTrue := Expr.isEmptyBranch (onTrue.map source)
  let noFalse := Expr.isEmptyBranch (onFalse.map source)
  if noTrue && noFalse then return [.test c]
  else if noTrue then
    let stmts ← indented (bodyOf onFalse false)
    return [.branches [⟨.not (.paren c), stmts⟩] none]
  else
    let stmts ← indented (bodyOf onTrue false)
    let tail ← elseTail onFalse
    return [.branches (⟨c, stmts⟩ :: tail.arms) tail.otherwise]

/-- A branch. After `else` it adds its arms to the ones before. -/
def ite (loc : Loc) (type : Ty) (cond : Emission) (onTrue onFalse : Option Emission) :
    Emission :=
  { stmtOnly (.ite loc type cond.source (onTrue.map source) (onFalse.map source))
      fun _ => branch cond onTrue onFalse with
    orElse := do
      let c ← cond.value
      let stmts ← indented (bodyOf onTrue false)
      let tail ← elseTail onFalse
      return ⟨⟨c, stmts⟩ :: tail.arms, tail.otherwise⟩ }

/-- The subject of a switch equals a case value. -/
def caseTest (subject value : Emission) : EmitM Lua.Expr := do
  let s ← subject.operand Lua.Operator.eq.precedence false
  let v ← value.operand Lua.Operator.eq.precedence true
  return .binary .eq s v

/-- The subject equals one of the case values, after a test already
written. -/
def caseTestsAfter (subject : Emission) (test : Lua.Expr) : List Emission → EmitM Lua.Expr
  | [] => return test
  | v :: rest => do
    let next ← caseTest subject v
    caseTestsAfter subject (.binary .or test next) rest

/-- The condition of a case. -/
def caseCond (subject : Emission) : List Emission → EmitM Lua.Expr
  | [] => return .bool false
  | v :: rest => do
    let first ← caseTest subject v
    caseTestsAfter subject first rest

/-- The arms of a switch. -/
def caseArms (subject : Emission) :
    List (Case Emission) → EmitM (List (Lua.Arm Lua.Expr Lua.Stmt))
  | [] => return []
  | ⟨values, body⟩ :: rest => do
    let c ← caseCond subject values
    let stmts ← indented (bodyOf body false)
    return ⟨c, stmts⟩ :: (← caseArms subject rest)

/-- What a switch does if no case is taken. -/
def defaultArm (default : Option Emission) : EmitM (Option Lua.Block) := do
  if Expr.isEmptyBranch (default.map source) then return none
  else return some (← indented (bodyOf default false))

/-- A switch as a branch with one arm per case. -/
def switch (loc : Loc) (type : Ty) (subject : Emission) (cases : List (Case Emission))
    (default : Option Emission) : Emission :=
  let source := Expr.switch loc type subject.source
    (cases.map fun c => ⟨c.values.map source, c.body.map source⟩) (default.map source)
  stmtOnly source fun _ => do
    if cases.isEmpty then
      match default with
      | none => return []
      | some e => if Expr.isEmptyBranch (some e.source) then return [] else e.stmt false
    else
      let arms ← caseArms subject cases
      return [.branches arms (← defaultArm default)]

/-- The label a loop needs for its body; zero if it needs none. -/
def loopLabel (body : Option Emission) : EmitM UInt32 :=
  if body.any fun e => e.source.continuesLoop then freshLabel else return 0

/-- The body of a loop. A label stands after a block of its own, so that
no local of the body is in sight there. -/
def loopBody (body : Option Emission) (label : UInt32) (closed : Bool) : EmitM Lua.Block := do
  within (.loop label) do
    if label = 0 && !closed then bodyOf body false
    else
      let stmts ← indented (bodyOf body false)
      return if label = 0 then [.scope stmts] else [.scope stmts, .label label]

/-- The body declares a local in its own scope. -/
def declaresLocal : Option Emission → Bool
  | none => false
  | some e =>
    match e.source.bare with
    | .varDecl .. => true
    | .block _ _ exprs => exprs.any fun s => match s.bare with
      | .varDecl .. => true
      | _ => false
    | _ => false

/-- A loop. A condition tested after the body must not see the locals of
the body. -/
def loop (loc : Loc) (test : LoopTest) (cond : Emission) (body : Option Emission) :
    Emission :=
  stmtOnly (.loop loc test cond.source (body.map source)) fun _ => do
    let label ← loopLabel body
    match test with
    | .before =>
      let c ← cond.value
      return [.loopWhile c (← indented (loopBody body label false))]
    | .after =>
      let stmts ← indented (loopBody body label (declaresLocal body))
      return [.loopUntilNot stmts (← cond.value)]

/-- The local that holds an iterator. -/
def iteratorName : String := "_hx_it"

/-- A loop over an iterator. -/
def forIn (loc : Loc) (var : Var) (iterator : Emission) (body : Option Emission) :
    Emission :=
  stmtOnly (.forIn loc var iterator.source (body.map source)) fun _ => do
    let label ← loopLabel body
    indented do
      let it ← iterator.value
      let stmts ← indented (loopBody body label false)
      let next := Lua.Stmt.localVar (Lua.localName var)
        (some (.method (.name iteratorName) "next" []))
      return [.scope [.localVar iteratorName (some it),
        .loopWhile (.method (.name iteratorName) "hasNext" []) (next :: stmts)]]

/-- A comparison of the result of a protected body with a mark. -/
def resultIs (op : Lua.Operator) (mark : String) : Lua.Expr :=
  .binary op (.name Lua.resultName) (.name mark)

/-- What happens when a protected body has failed. Handlers are not told
apart by type: the last one catches everything. -/
def handlerArm (handlers : List (Handler Emission)) : EmitM Lua.Block :=
  match handlers.getLast? with
  | none => return [.run (.call (.name "error") [.name Lua.resultName, .int 0])]
  | some handler => do
    let stmts ← indented (bodyOf handler.body false)
    return .localVar (Lua.localName handler.var) (some (.name Lua.resultName)) :: stmts

/-- An arm that is there only if it is needed. -/
def armIf (needed : Bool) (cond : Lua.Expr) (stmt : EmitM Lua.Stmt) :
    EmitM (List (Lua.Arm Lua.Expr Lua.Stmt)) := do
  if needed then return [⟨cond, [← indented stmt]⟩] else return []

/-- A try. -/
def tryCatch (loc : Loc) (type : Ty) (body : Option Emission)
    (handlers : List (Handler Emission)) : Emission :=
  let source := Expr.tryCatch loc type (body.map source)
    (handlers.map fun h => ⟨h.var, h.body.map source⟩)
  stmtOnly source fun _ => do
    let stmts ← within .protect (indented (bodyOf body true))
    let failed ← handlerArm handlers
    let breaks ← armIf (body.any fun e => e.source.breaksLoop) (resultIs .eq breakMark)
      (breakStmt loc)
    let continues ← armIf (body.any fun e => e.source.continuesLoop) (resultIs .eq continueMark)
      (continueStmt loc)
    let returns ← armIf (body.any fun e => e.source.canReturn) (resultIs .ne doneMark)
      (return .ret (some (.name Lua.resultName)))
    return [.protect (stmts ++ [.ret (some (.name doneMark))]),
      .branches (⟨.not (.name Lua.statusName), failed⟩ :: (breaks ++ continues ++ returns)) none]

end Emission

end LuaBackend.Emit
