import LuaBackend.Normalize.Hoist
import LuaBackend.Normalize.Supply
import LuaBackend.Tree.Rebuild

/-!
# Lowering, node by node

A node can be asked for in four ways: for its value, as a place to assign
to, as a statement, and as the body of something. `Lowering` answers all
four, and each kind of node has a function that makes the lowering of the
node from the lowerings of its parts. A statement may be given an
*assignee*, the place that receives the value of the statement; it is
passed on to the last statement of every branch.

Loops whose condition needs statements, and switches whose case values
do, are lowered as other nodes: a loop with a guard at its top, and a
chain of branches.
-/

namespace LuaBackend.Normalize

/-- What a node becomes, depending on where it stands. -/
structure Lowering where
  /-- The node itself. -/
  source : Expr
  /-- Its value. -/
  value : Norm Hoisted
  /-- The node as a place to assign to. -/
  target : Spill → Norm Hoisted
  /-- The node as a statement, its value stored in the assignee. -/
  stmt : Option Expr → Norm (List Expr)
  /-- The node as a body: like a statement, but a block adds no scope. -/
  body : Option Expr → Norm (List Expr)

/-- A value as a statement: stored in the assignee, or evaluated only if
that can be observed. -/
def storeOrDrop (loc : Loc) (value : Norm Hoisted) (assignee : Option Expr) :
    Norm (List Expr) := do
  let h ← value
  match assignee with
  | some place => return h.stmts ++ [.mkAssign loc place h.value]
  | none => return if h.value.isPure then h.stmts else h.stmts ++ [h.value]

/-- The value of statements that store it in the place they are given.
What has no type or yields nothing is null. -/
def valueOfStmts (source : Expr) (stmt : Option Expr → Norm (List Expr)) : Norm Hoisted := do
  if source.type.isUntyped || source.type.isKind .void then
    return ⟨← stmt none, .nullLit source.loc⟩
  else
    let t ← freshTemp source.type
    let stmts ← stmt (some (.local source.loc t))
    return ⟨.varDecl source.loc t none :: stmts, .local source.loc t⟩

namespace Lowering

/-- A node that is a value, and as a statement is that value stored or
dropped. -/
def ofValue (source : Expr) (value : Norm Hoisted) : Lowering where
  source := source
  value := value
  target _ := value
  stmt := storeOrDrop source.loc value
  body := storeOrDrop source.loc value

/-- A node that is a statement. Its value is null unless it passes an
assignee on. -/
def ofStmt (source : Expr) (stmt : Option Expr → Norm (List Expr)) : Lowering :=
  let value : Norm Hoisted :=
    if source.isBlockLike then valueOfStmts source stmt
    else do return ⟨← stmt none, .nullLit source.loc⟩
  { source, value, target := fun _ => value, stmt, body := stmt }

/-- A node that is its own value. -/
def leaf (source : Expr) : Lowering := ofValue source (pure ⟨[], source⟩)

/-- The statements of an optional part as a block. -/
def scope (part : Option Lowering) (assignee : Option Expr) : Norm Expr :=
  match part with
  | none => return .statements {} []
  | some part => return .statements part.source.loc (← part.body assignee)

/-- The function that passes its arguments on to a method. -/
def forwarder (loc : Loc) (type : Ty) (ref : MemberRef) (receiver : Option Expr) : Norm Expr := do
  let signature := type.unwrap
  let result := if signature.isKind .function then signature.result else .dynamic
  let params ← freshTemps signature.params
  let call := Expr.call loc result (.field loc type ref receiver) (params.map (.local loc ·))
  let code := if result.isKind .void then call else .ret loc (some call)
  return .mkFunction loc params result (some (.mkBlock loc [code]))

/-- The value of a member. A forwarded method keeps its receiver in a
temporary, because the function reads it later; a bound method names its
receiver twice. -/
def fieldValue (loc : Loc) (type : Ty) (ref : MemberRef) : Option Lowering → Norm Hoisted
  | none =>
    if ref.isForwarded then return ⟨[], ← forwarder loc type ref none⟩
    else return ⟨[], .field loc type ref none⟩
  | some receiver => do
    let h ← receiver.value
    if ref.isForwarded then
      let s ← spill (!h.value.isStable) h.value
      return ⟨h.stmts ++ s.stmts, ← forwarder loc type ref (some s.value)⟩
    else
      let s ← spill (ref.access = .closure && !h.value.isPure) h.value
      return ⟨h.stmts ++ s.stmts, .field loc type ref (some s.value)⟩

/-- A member as a place to assign to. -/
def fieldTarget (loc : Loc) (type : Ty) (ref : MemberRef) (receiver : Option Lowering)
    (how : Spill) : Norm Hoisted :=
  match receiver with
  | none => return ⟨[], .field loc type ref none⟩
  | some receiver => do
    let h ← receiver.value
    let s ← spill (how.needs h.value) h.value
    return ⟨h.stmts ++ s.stmts, .field loc type ref (some s.value)⟩

/-- Access to a member. -/
def field (loc : Loc) (type : Ty) (ref : MemberRef) (receiver : Option Lowering) : Lowering :=
  { ofValue (.field loc type ref (receiver.map source)) (fieldValue loc type ref receiver) with
    target := fieldTarget loc type ref receiver }

/-- An element as a place to assign to. -/
def indexTarget (loc : Loc) (type : Ty) (base position : Lowering) (how : Spill) :
    Norm Hoisted := do
  let (stmts, b, p) ← operandPair base.value position.value
  let b ← spill (how.needs b) b
  let p ← spill (how.needs p) p
  return ⟨stmts ++ b.stmts ++ p.stmts, .index loc type b.value p.value⟩

/-- Access to an element. -/
def index (loc : Loc) (type : Ty) (base position : Lowering) : Lowering :=
  { ofValue (.index loc type base.source position.source) (do
      let (stmts, b, p) ← operandPair base.value position.value
      return ⟨stmts, .index loc type b p⟩) with
    target := indexTarget loc type base position }

/-- Parentheses. They are kept around a value and dropped elsewhere. -/
def paren (loc : Loc) (type : Ty) (inner : Lowering) : Lowering where
  source := .paren loc type inner.source
  value := do
    let h ← inner.value
    return ⟨h.stmts, .mkParen loc h.value⟩
  target := inner.target
  stmt := inner.stmt
  body := inner.body

/-- An annotation. It is kept around a value and dropped elsewhere. -/
def annot (loc : Loc) (type : Ty) (name : String) (inner : Lowering) : Lowering where
  source := .annot loc type name inner.source
  value := do
    let h ← inner.value
    return ⟨h.stmts, .mkAnnot loc name h.value⟩
  target := inner.target
  stmt := inner.stmt
  body := inner.body

/-- A cast. -/
def cast (loc : Loc) (type : Ty) (checked : Option TypePath) (inner : Lowering) : Lowering :=
  ofValue (.cast loc type checked inner.source) do
    let h ← inner.value
    return ⟨h.stmts, .cast loc type checked h.value⟩

/-- A parameter of an enum value. -/
def enumParam (loc : Loc) (type : Ty) (ctor : String) (slot : UInt32) (value : Lowering) :
    Lowering :=
  ofValue (.enumParam loc type value.source ctor slot) do
    let h ← value.value
    return ⟨h.stmts, .enumParam loc type h.value ctor slot⟩

/-- The index of an enum value. -/
def enumIndex (loc : Loc) (value : Lowering) : Lowering :=
  ofValue (.enumIndex loc value.source) do
    let h ← value.value
    return ⟨h.stmts, .enumIndex loc h.value⟩

/-- An object literal. -/
def object (loc : Loc) (type : Ty) (fields : List (FieldInit Lowering)) : Lowering :=
  ofValue (.object loc type (fields.map fun f => ⟨f.name, f.value.source⟩)) do
    let (stmts, values) ← operands (fields.map fun f => f.value.value)
    return ⟨stmts, .object loc type (fields.zipWith (fun f v => ⟨f.name, v⟩) values)⟩

/-- An array literal. -/
def array (loc : Loc) (type : Ty) (elements : List Lowering) : Lowering :=
  ofValue (.array loc type (elements.map source)) do
    let (stmts, values) ← operands (elements.map value)
    return ⟨stmts, .array loc type values⟩

/-- The making of an object. -/
def new (loc : Loc) (type : Ty) (cls : TypePath) (ctorType : Ty) (args : List Lowering) :
    Lowering :=
  ofValue (.new loc type cls ctorType (args.map source)) do
    let (stmts, values) ← operands (args.map value)
    return ⟨stmts, .new loc type cls ctorType values⟩

/-- A call of a member. The member stays where it is; only its receiver
is taken as a value. -/
def callMember (loc : Loc) (type : Ty) (memberLoc : Loc) (memberType : Ty) (ref : MemberRef)
    (receiver : Option Lowering) (args : List Lowering) : Lowering :=
  let member := Expr.field memberLoc memberType ref
  ofValue (.call loc type (member (receiver.map source)) (args.map source)) do
    match receiver with
    | none =>
      let (stmts, values) ← operands (args.map value)
      return ⟨stmts, .call loc type (member none) values⟩
    | some receiver =>
      let (stmts, values) ← operands (receiver.value :: args.map value)
      return ⟨stmts, .call loc type (member (some (values.headD .omitted))) values.tail⟩

/-- A call of anything else. An identifier or a constant is no value that
could be disturbed. -/
def call (loc : Loc) (type : Ty) (callee : Lowering) (args : List Lowering) : Lowering :=
  ofValue (.call loc type callee.source (args.map source)) do
    match callee.source with
    | .ident .. | .const .. =>
      let (stmts, values) ← operands (args.map value)
      return ⟨stmts, .call loc type callee.source values⟩
    | _ =>
      let (stmts, values) ← operands (callee.value :: args.map value)
      return ⟨stmts, .call loc type (values.headD .omitted) values.tail⟩

/-- A function literal. Its body is lowered on its own; default values
stay as they are. -/
def function (loc : Loc) (type : Ty) (params : List (Param Expr)) (result : Ty)
    (body : Option Lowering) : Lowering :=
  ofValue (.function loc type params result (body.map source)) do
    let params := params.map fun p => { p with default := p.default.map Expr.retyped }
    match body with
    | none => return ⟨[], .function loc type params result none⟩
    | some body =>
      let stmts ← body.body none
      return ⟨[], .function loc type params result (some (.statements body.source.loc stmts))⟩

/-- How the parts of an assigned place have to be moved out of the way of
the right side. -/
def assignSpill (op : BinaryOp) (rhs : Expr) : Spill :=
  if rhs.hoists then .unstable
  else if op ≠ .assign || !rhs.isPure then .impure
  else .none

/-- A plain or compound assignment, and the place that was assigned. A
block on the right side stores into the place from each of its ends. -/
def assignment (loc : Loc) (type : Ty) (op : BinaryOp) (lhs rhs : Lowering) : Norm Hoisted := do
  if op = .assign && rhs.source.bare.isBlockLike then
    let place ← lhs.target .unstable
    let stmts ← rhs.stmt (some place.value)
    return ⟨place.stmts ++ stmts, place.value⟩
  else
    let place ← lhs.target (assignSpill op rhs.source)
    let h ← rhs.value
    return ⟨place.stmts ++ h.stmts ++ [.binary loc type op place.value h.value], place.value⟩

/-- An operator whose right side is evaluated only depending on the left
one. -/
def shortCircuit (loc : Loc) (type : Ty) (op : BinaryOp) (lhs rhs : Lowering) :
    Norm Hoisted := do
  let h ← lhs.value
  if rhs.source.hoists then
    let t ← freshTemp .bool
    let cond := Expr.local loc t
    let cond := if op = .or then .mkUnary loc .not false cond else cond
    let stmts ← scope (some rhs) (some (.local loc t))
    return ⟨h.stmts ++ [.varDecl loc t (some h.value), .ite loc .void cond (some stmts) none],
      .local loc t⟩
  else
    let r ← rhs.value
    return ⟨h.stmts ++ r.stmts, .binary loc type op h.value r.value⟩

/-- The left side unless it is null, and then the right one. -/
def nullCoalesce (loc : Loc) (type : Ty) (lhs rhs : Lowering) : Norm Hoisted := do
  let h ← lhs.value
  let t ← freshTemp (if type.isUntyped then h.value.type else type)
  let cond := Expr.mkBinary loc .eq (.local loc t) (.nullLit loc)
  let stmts ← scope (some rhs) (some (.local loc t))
  return ⟨h.stmts ++ [.varDecl loc t (some h.value), .ite loc .void cond (some stmts) none],
    .local loc t⟩

/-- An operator that takes both its operands. -/
def operation (loc : Loc) (type : Ty) (op : BinaryOp) (lhs rhs : Lowering) : Norm Hoisted := do
  let (stmts, l, r) ← operandPair lhs.value rhs.value
  return ⟨stmts, .binary loc type op l r⟩

/-- The value of a binary operation. -/
def binaryValue (loc : Loc) (type : Ty) (op : BinaryOp) (lhs rhs : Lowering) : Norm Hoisted :=
  match op with
  | .assign | .compound _ => assignment loc type op lhs rhs
  | .nullCoalesce => nullCoalesce loc type lhs rhs
  | .and | .or => shortCircuit loc type op lhs rhs
  | _ => operation loc type op lhs rhs

/-- An assignment as a statement. The assigned place is passed on to the
assignee. -/
def assignStmt (loc : Loc) (type : Ty) (op : BinaryOp) (lhs rhs : Lowering)
    (assignee : Option Expr) : Norm (List Expr) := do
  let h ← assignment loc type op lhs rhs
  match assignee with
  | some place => return h.stmts ++ [.mkAssign loc place h.value]
  | none => return h.stmts

/-- A binary operation. -/
def binary (loc : Loc) (type : Ty) (op : BinaryOp) (lhs rhs : Lowering) : Lowering :=
  let node := ofValue (.binary loc type op lhs.source rhs.source) (binaryValue loc type op lhs rhs)
  if op.isAssignment then
    { node with
      stmt := assignStmt loc type op lhs rhs
      body := assignStmt loc type op lhs rhs }
  else node

/-- The change of a place by one, and the place. -/
def step (loc : Loc) (op : UnaryOp) (operand : Lowering) : Norm Hoisted := do
  let place ← operand.target .impure
  let change := Expr.binary loc place.value.type (.compound op.stepOp) place.value (.intLit loc 1)
  return ⟨place.stmts ++ [change], place.value⟩

/-- The change of a place by one, and what it held before. -/
def stepAfter (loc : Loc) (type : Ty) (op : UnaryOp) (operand : Lowering) : Norm Hoisted := do
  let place ← operand.target .impure
  let old ← freshTemp type
  let change := Expr.binary loc place.value.type (.compound op.stepOp) place.value (.intLit loc 1)
  return ⟨place.stmts ++ [.varDecl loc old (some place.value), change], .local loc old⟩

/-- The value of a unary operation. -/
def unaryValue (loc : Loc) (type : Ty) (op : UnaryOp) (isPost : Bool) (operand : Lowering) :
    Norm Hoisted :=
  if op.isStep then
    if isPost then stepAfter loc type op operand else step loc op operand
  else do
    let h ← operand.value
    return ⟨h.stmts, .mkUnary loc op isPost h.value⟩

/-- A unary operation as a statement. A step whose value nobody wants need
not keep the old value. -/
def unaryStmt (loc : Loc) (type : Ty) (op : UnaryOp) (isPost : Bool) (operand : Lowering)
    (assignee : Option Expr) : Norm (List Expr) :=
  if op.isStep && assignee.isNone then return (← step loc op operand).stmts
  else storeOrDrop loc (unaryValue loc type op isPost operand) assignee

/-- A unary operation. -/
def unary (loc : Loc) (type : Ty) (op : UnaryOp) (isPost : Bool) (operand : Lowering) :
    Lowering :=
  { ofValue (.unary loc type op isPost operand.source) (unaryValue loc type op isPost operand) with
    stmt := unaryStmt loc type op isPost operand
    body := unaryStmt loc type op isPost operand }

/-! ## Statements -/

/-- A jump without a value. -/
def jump (source : Expr) : Lowering := ofStmt source fun _ => return [source]

/-- A return. -/
def ret (loc : Loc) : Option Lowering → Lowering
  | none => ofStmt (.ret loc none) fun _ => return [.ret loc none]
  | some value => ofStmt (.ret loc (some value.source)) fun _ => do
    let h ← value.value
    return h.stmts ++ [.ret loc (some h.value)]

/-- A throw. -/
def throw (loc : Loc) (value : Lowering) : Lowering :=
  ofStmt (.throw loc value.source) fun _ => do
    let h ← value.value
    return h.stmts ++ [.throw loc h.value]

/-- The declaration of a local. A block as initial value stores into the
local from each of its ends. -/
def varDecl (loc : Loc) (var : Var) : Option Lowering → Lowering
  | none => ofStmt (.varDecl loc var none) fun _ => return [.varDecl loc var none]
  | some init => ofStmt (.varDecl loc var (some init.source)) fun _ => do
    if init.source.bare.isBlockLike then
      let stmts ← init.stmt (some (.local loc var))
      return .varDecl loc var none :: stmts
    else
      let h ← init.value
      return h.stmts ++ [.varDecl loc var (some h.value)]

/-- The statements of a sequence; the last one stores into the
assignee. -/
def sequence (assignee : Option Expr) : List Lowering → Norm (List Expr)
  | [] => return []
  | [last] => last.stmt assignee
  | first :: second :: rest => do
    let stmts ← first.stmt none
    return stmts ++ (← sequence assignee (second :: rest))

/-- A block. As a statement it is a scope of its own, and nothing at all
if nothing is in it. -/
def block (loc : Loc) (type : Ty) (exprs : List Lowering) : Lowering :=
  let source := Expr.block loc type (exprs.map source)
  let stmt := fun assignee => do
    let stmts ← sequence assignee exprs
    return if stmts.isEmpty then [] else [.statements loc stmts]
  let value : Norm Hoisted :=
    if exprs.isEmpty then return ⟨[], .nullLit loc⟩ else valueOfStmts source stmt
  { source, value, target := fun _ => value, stmt, body := fun assignee => sequence assignee exprs }

/-- A branch. -/
def ite (loc : Loc) (type : Ty) (cond : Lowering) (onTrue onFalse : Option Lowering) : Lowering :=
  ofStmt (.ite loc type cond.source (onTrue.map source) (onFalse.map source)) fun assignee => do
    let c ← cond.value
    let t ← scope onTrue assignee
    match onFalse with
    | none => return c.stmts ++ [.ite loc .void c.value (some t) none]
    | some onFalse =>
      let f ← scope (some onFalse) assignee
      return c.stmts ++ [.ite loc .void c.value (some t) (some f)]

/-- A loop over an iterator. -/
def forIn (loc : Loc) (var : Var) (iterator : Lowering) (body : Option Lowering) : Lowering :=
  ofStmt (.forIn loc var iterator.source (body.map source)) fun _ => do
    let h ← iterator.value
    let stmts ← scope body none
    return h.stmts ++ [.forIn loc var h.value (some stmts)]

/-- The handlers of a try. -/
def handlers (assignee : Option Expr) : List (Handler Lowering) → Norm (List (Handler Expr))
  | [] => return []
  | ⟨var, body⟩ :: rest => do
    let stmts ← scope body assignee
    return ⟨var, some stmts⟩ :: (← handlers assignee rest)

/-- A try. -/
def tryCatch (loc : Loc) (type : Ty) (body : Option Lowering)
    (catches : List (Handler Lowering)) : Lowering :=
  ofStmt (.tryCatch loc type (body.map source)
      (catches.map fun h => ⟨h.var, h.body.map source⟩)) fun assignee => do
    let stmts ← scope body assignee
    let catches ← handlers assignee catches
    return [.tryCatch loc .void (some stmts) catches]

/-- The statements of a loop whose condition needs none of its own. -/
def plainLoop (loc : Loc) (test : LoopTest) (cond : Lowering) (body : Option Lowering) :
    Norm (List Expr) := do
  let c ← cond.value
  let stmts ← scope body none
  return [.loop loc test c.value (some stmts)]

/-- Leaves the loop unless the condition holds. -/
def guard (loc : Loc) (cond : Lowering) : Lowering :=
  ite loc .void (unary loc .bool .not false (paren loc cond.source.type cond))
    (some (jump (.brk loc))) none

/-- The guard, except that the first time round `first` is cleared
instead. -/
def guardAfterFirst (loc : Loc) (first : Var) (cond : Lowering) : Lowering :=
  let clear := binary loc .bool .assign (leaf (.local loc first)) (leaf (.boolLit loc false))
  ite loc .bool (leaf (.local loc first)) (some clear) (some (guard loc cond))

/-- An endless loop whose body begins with a guard. -/
def guardedLoop (loc : Loc) (guard : Lowering) (body : Option Lowering) : Norm (List Expr) :=
  let parts := guard :: body.toList
  let type := ((parts.getLast?.map fun p => p.source.type).getD .void)
  plainLoop loc .before (leaf (.boolLit loc true)) (some (block loc type parts))

/-- A loop. If its condition needs statements, they have to run each time
the condition is tested, so the test moves into the body. -/
def loop (loc : Loc) (test : LoopTest) (cond : Lowering) (body : Option Lowering) : Lowering :=
  ofStmt (.loop loc test cond.source (body.map source)) fun _ => do
    if !cond.source.hoists then
      plainLoop loc test cond body
    else
      match test with
      | .before => guardedLoop loc (guard loc cond) body
      | .after =>
        let first ← freshTemp .bool
        let stmts ← guardedLoop loc (guardAfterFirst loc first cond) body
        return .varDecl loc first (some (.boolLit loc true)) :: stmts

/-- The values of a case, none of which may need statements. -/
def caseValues : List Lowering → Norm (List Expr)
  | [] => return []
  | v :: rest => do
    let h ← v.value
    if h.stmts.isEmpty then return h.value :: (← caseValues rest)
    else throwThe Fault .unexpectedStatements

/-- The cases of a switch whose values need no statements. -/
def plainCases (assignee : Option Expr) : List (Case Lowering) → Norm (List (Case Expr))
  | [] => return []
  | ⟨values, body⟩ :: rest => do
    let values ← caseValues values
    let stmts ← scope body assignee
    return ⟨values, some stmts⟩ :: (← plainCases assignee rest)

/-- The statements of a switch whose case values need none of their own.
The subject is read once for each value, so one that can be observed is
kept in a temporary. -/
def plainSwitch (loc : Loc) (subject : Lowering) (cases : List (Case Lowering))
    (default : Option Lowering) (assignee : Option Expr) : Norm (List Expr) := do
  let h ← subject.value
  let s ← spill (!h.value.isPure) h.value
  let cases ← plainCases assignee cases
  match default with
  | none => return h.stmts ++ s.stmts ++ [.switch loc .void s.value cases none]
  | some default =>
    let stmts ← scope (some default) assignee
    return h.stmts ++ s.stmts ++ [.switch loc .void s.value cases (some stmts)]

/-- The subject, kept in a variable, equals one of the values. -/
def anyEqual (loc : Loc) (subject : Var) : List Lowering → Lowering
  | [] => leaf (.boolLit loc false)
  | first :: rest =>
    let equal (v : Lowering) :=
      binary v.source.loc .bool .eq (leaf (.local v.source.loc subject)) v
    rest.foldl (fun cond v => binary v.source.loc .bool .or cond (equal v)) (equal first)

/-- The cases of a switch as a chain of branches. -/
def branchChain (loc : Loc) (type : Ty) (subject : Var) (default : Option Lowering) :
    List (Case Lowering) → Option Lowering
  | [] => default
  | ⟨values, body⟩ :: rest =>
    some (ite loc type (anyEqual loc subject values) (some (body.getD (block loc .void [])))
      (branchChain loc type subject default rest))

/-- The statements of a switch whose case values need statements. -/
def chainedSwitch (loc : Loc) (type : Ty) (subject : Lowering) (cases : List (Case Lowering))
    (default : Option Lowering) (assignee : Option Expr) : Norm (List Expr) := do
  let h ← subject.value
  let s ← freshTemp h.value.type
  let decl := h.stmts ++ [.varDecl loc s (some h.value)]
  match branchChain loc type s default cases with
  | none => return decl
  | some chain => return decl ++ (← chain.stmt assignee)

/-- A switch. -/
def switch (loc : Loc) (type : Ty) (subject : Lowering) (cases : List (Case Lowering))
    (default : Option Lowering) : Lowering :=
  let source := Expr.switch loc type subject.source
    (cases.map fun c => ⟨c.values.map source, c.body.map source⟩) (default.map source)
  ofStmt source fun assignee =>
    if cases.any fun c => c.values.any fun v => v.source.hoists then
      chainedSwitch loc type subject cases default assignee
    else
      plainSwitch loc subject cases default assignee

end Lowering

end LuaBackend.Normalize
