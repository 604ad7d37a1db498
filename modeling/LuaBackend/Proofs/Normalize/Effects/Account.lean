import LuaBackend.Normalize.Basic

/-!
# Effects, and what lowering does to them

A call, the making of an object, an object or array literal and a checked
cast have an effect of their own. `occurrences` counts the nodes with an
effect at a given site, outside of function literals. `account` follows
lowering node by node and says what becomes of these effects: how many
stay in a value once statements have been hoisted (`Residue`), and how
many are written too often or not at all (`Balance`).
-/

namespace LuaBackend

/-- The sorts of nodes with an effect. -/
inductive EffectKind where
  | call
  | new
  | object
  | array
  | cast
deriving DecidableEq, Inhabited

/-- A node with an effect, by its sort and position. -/
structure Site where
  kind : EffectKind
  loc : Loc
deriving DecidableEq, Inhabited

def Site.hit (x : Site) (kind : EffectKind) (loc : Loc) : Nat := if x = ⟨kind, loc⟩ then 1 else 0

namespace Expr

mutual

def occurrences (x : Site) : Expr → Nat
  | omitted | const .. | .local .. | typeRef .. | ident .. | brk .. | cont .. | function .. => 0
  | field _ _ _ receiver => occurrencesOption x receiver
  | index _ _ base position => occurrences x base + occurrences x position
  | paren _ _ inner => occurrences x inner
  | annot _ _ _ inner => occurrences x inner
  | object loc _ fields => x.hit .object loc + occurrencesFields x fields
  | array loc _ elements => x.hit .array loc + occurrencesList x elements
  | call loc _ callee args => x.hit .call loc + (occurrences x callee + occurrencesList x args)
  | new loc _ _ _ args => x.hit .new loc + occurrencesList x args
  | binary _ _ _ lhs rhs => occurrences x lhs + occurrences x rhs
  | unary _ _ _ _ operand => occurrences x operand
  | varDecl _ _ init => occurrencesOption x init
  | block _ _ exprs => occurrencesList x exprs
  | forIn _ _ iterator body => occurrences x iterator + occurrencesOption x body
  | ite _ _ cond onTrue onFalse =>
    occurrences x cond + (occurrencesOption x onTrue + occurrencesOption x onFalse)
  | loop _ _ cond body => occurrences x cond + occurrencesOption x body
  | switch _ _ subject cases default =>
    occurrences x subject + (occurrencesCases x cases + occurrencesOption x default)
  | ret _ value => occurrencesOption x value
  | throw _ value => occurrences x value
  | cast _ _ none inner => occurrences x inner
  | cast loc _ (some _) inner => x.hit .cast loc + occurrences x inner
  | tryCatch _ _ body handlers => occurrencesOption x body + occurrencesHandlers x handlers
  | enumParam _ _ value _ _ => occurrences x value
  | enumIndex _ value => occurrences x value

def occurrencesList (x : Site) : List Expr → Nat
  | [] => 0
  | e :: rest => occurrences x e + occurrencesList x rest

def occurrencesOption (x : Site) : Option Expr → Nat
  | none => 0
  | some e => occurrences x e

def occurrencesFields (x : Site) : List (FieldInit Expr) → Nat
  | [] => 0
  | ⟨_, value⟩ :: rest => occurrences x value + occurrencesFields x rest

def occurrencesCases (x : Site) : List (Case Expr) → Nat
  | [] => 0
  | ⟨values, body⟩ :: rest =>
    occurrencesList x values + occurrencesOption x body + occurrencesCases x rest

def occurrencesHandlers (x : Site) : List (Handler Expr) → Nat
  | [] => 0
  | ⟨_, body⟩ :: rest => occurrencesOption x body + occurrencesHandlers x rest

end

attribute [grind] occurrences occurrencesList occurrencesOption occurrencesFields occurrencesCases
  occurrencesHandlers

@[simp, grind =] theorem occurrencesList_append (x : Site) (es fs : List Expr) :
    occurrencesList x (es ++ fs) = occurrencesList x es + occurrencesList x fs := by
  induction es with
  | nil => simp [occurrencesList]
  | cons e rest ih => simp only [List.cons_append, occurrencesList, ih]; omega

/-- What cannot be observed has no effects. -/
theorem occurrences_of_isPure (x : Site) : ∀ e : Expr, e.isPure = true → e.occurrences x = 0
  | omitted, _ | const .., _ | .local .., _ | typeRef .., _ | function .., _ => rfl
  | field _ _ _ none, _ => rfl
  | field _ _ _ (some receiver), h => occurrences_of_isPure x receiver h
  | index _ _ base position, h => by
    simp only [isPure, Bool.and_eq_true] at h
    rw [occurrences, occurrences_of_isPure x base h.1, occurrences_of_isPure x position h.2]
  | paren _ _ inner, h => occurrences_of_isPure x inner h
  | annot _ _ _ inner, h => occurrences_of_isPure x inner h
  | enumParam _ _ value _ _, h => occurrences_of_isPure x value h
  | enumIndex _ value, h => occurrences_of_isPure x value h
  | cast _ _ none inner, h => occurrences_of_isPure x inner h
  | binary _ _ _ lhs rhs, h => by
    simp only [isPure, Bool.and_eq_true] at h
    rw [occurrences, occurrences_of_isPure x lhs h.1.2, occurrences_of_isPure x rhs h.2]
  | unary _ _ _ _ operand, h => by
    simp only [isPure, Bool.and_eq_true] at h
    exact occurrences_of_isPure x operand h.2

end Expr

namespace Normalize

/-! ## Accounts -/

/-- What taking a value leaves. -/
structure Residue where
  /-- Statements are hoisted. -/
  emits : Bool
  /-- Evaluating the value cannot be observed. -/
  pure : Bool
  /-- The value is the same wherever it is evaluated. -/
  stable : Bool
  /-- How many effects at the site stay in the value. -/
  left : Nat
deriving DecidableEq, Inhabited

namespace Residue

def plain : Residue := ⟨false, true, true, 0⟩

def temp : Residue := ⟨true, true, true, 0⟩

/-- The value, moved into a temporary where `needed`. -/
def spill (needed : Bool) (r : Residue) : Residue := if needed then temp else r

def before (a b : Residue) : Residue := { a.spill (b.emits && !a.stable) with emits := a.emits || b.emits }

def anyEmits : List Residue → Bool
  | [] => false
  | r :: rest => r.emits || anyEmits rest

def leftInAll : List Residue → Nat
  | [] => 0
  | r :: rest => (r.spill (anyEmits rest && !r.stable)).left + leftInAll rest

end Residue

def Spill.moves (how : Spill) (r : Residue) : Bool :=
  match how with
  | .none => false
  | .impure => !r.pure
  | .unstable => !r.stable

/-- The effects at the site that are written too often, and those not
written. -/
@[ext] structure Balance where
  clones : Nat
  lost : Nat
deriving DecidableEq, Inhabited

instance : Add Balance := ⟨fun a b => ⟨a.clones + b.clones, a.lost + b.lost⟩⟩

instance : Zero Balance := ⟨⟨0, 0⟩⟩

namespace Balance

@[simp, grind =] theorem clones_add (a b : Balance) : (a + b).clones = a.clones + b.clones := rfl

@[simp, grind =] theorem lost_add (a b : Balance) : (a + b).lost = a.lost + b.lost := rfl

@[simp, grind =] theorem clones_zero : (0 : Balance).clones = 0 := rfl

@[simp, grind =] theorem lost_zero : (0 : Balance).lost = 0 := rfl

@[simp] theorem zero_add (b : Balance) : 0 + b = b := by
  change Balance.mk (0 + b.clones) (0 + b.lost) = b
  rw [Nat.zero_add, Nat.zero_add]

theorem add_assoc (a b c : Balance) : a + b + c = a + (b + c) :=
  Balance.ext (Nat.add_assoc ..) (Nat.add_assoc ..)

/-- `count` effects, written `copies` times. -/
def ofCopies (copies count : Nat) : Balance := ⟨(copies - 1) * count, (1 - copies) * count⟩

/-- Copies and losses make up for each other. -/
theorem ofCopies_balanced (copies count : Nat) :
    copies * count + (ofCopies copies count).lost = count + (ofCopies copies count).clones := by
  cases copies with
  | zero => simp [ofCopies]
  | succ => simp [ofCopies, Nat.succ_mul, Nat.add_comm]

end Balance

/-- What is wanted of a node. -/
inductive Use where
  /-- Its value. -/
  | taken
  /-- A place to assign to. -/
  | placed
  /-- Statements; the value goes nowhere. -/
  | dropped
  /-- Statements that store the value in an assignee. -/
  | stored
deriving DecidableEq, Inhabited

def Use.ofStmt (stored : Bool) : Use := if stored then .stored else .dropped

/-- What becomes of the effects at a site when a node is lowered. -/
structure Account where
  /-- The node. -/
  source : Expr
  /-- What taking its value leaves. -/
  value : Residue
  /-- What is left of it as a place. -/
  target : Spill → Residue
  /-- As a statement it is not empty; the argument says whether there is
  an assignee. -/
  emits : Bool → Bool
  /-- How often it stores into an assignee. -/
  ends : Nat
  /-- What is written too often or not at all. -/
  balance : Use → Balance

namespace Account

open Account Residue

def ofValue (source : Expr) (value : Residue) (balance : Balance) : Account where
  source := source
  value := value
  target _ := value
  emits stored := stored || (value.emits || !value.pure)
  ends := 1
  balance _ := balance

def yieldsNull (e : Expr) : Bool :=
  !e.isBlockLike || (e.type.isUntyped || e.type.isKind .void)

def ofStmt (source : Expr) (emits : Bool → Bool) (ends : Nat) (balance : Bool → Balance) :
    Account :=
  let value := if yieldsNull source then { plain with emits := emits false } else .temp
  { source, value, target := fun _ => value, emits, ends
    balance := fun use =>
      match use with
      | .dropped => balance false
      | .stored => balance true
      | .taken | .placed => balance (!yieldsNull source) }

def leaf (source : Expr) : Account :=
  ofValue source ⟨false, source.isPure, source.isStable, 0⟩ 0

def scope (part : Option Account) (stored : Bool) : Balance :=
  match part with
  | none => 0
  | some part => part.balance (.ofStmt stored)

def scopeEnds : Option Account → Nat
  | none => 0
  | some part => part.ends

def fieldTarget (ref : MemberRef) (receiver : Option Account) (how : Spill) : Residue :=
  let stable := decide (ref.access = .enumCtor)
  match receiver with
  | none => { plain with stable }
  | some receiver => { receiver.value.spill (how.moves receiver.value) with stable }

/-- Access to a member. The receiver of a forwarded method goes into a
function. -/
def field (loc : Loc) (type : Ty) (ref : MemberRef) (receiver : Option Account) : Account :=
  let source := Expr.field loc type ref (receiver.map source)
  let target := fieldTarget ref receiver
  let stable := decide (ref.access = .enumCtor)
  match receiver with
  | none => { ofValue source { plain with stable := ref.isForwarded || stable } 0 with target }
  | some receiver =>
    let taken := receiver.balance .taken
    if ref.isForwarded then
      let kept := receiver.value.spill (!receiver.value.stable)
      { ofValue source { plain with emits := kept.emits } (taken + ⟨0, kept.left⟩) with
        target
        balance := fun use => if use = .placed then taken else taken + ⟨0, kept.left⟩ }
    else
      let kept := receiver.value.spill (ref.access = .closure && !receiver.value.pure)
      { ofValue source { kept with stable } taken with target }

def index (loc : Loc) (type : Ty) (base position : Account) : Account :=
  let parts (b p : Residue) : Residue := ⟨b.emits || p.emits, b.pure && p.pure, false, b.left + p.left⟩
  let b := base.value.before position.value
  let p := { position.value with emits := false }
  { ofValue (.index loc type base.source position.source) (parts b p)
      (base.balance .taken + position.balance .taken) with
    target := fun how => parts (b.spill (how.moves b)) (p.spill (how.moves p)) }

def wrap (source : Expr) (inner : Account) : Account := { inner with source }

def around (source : Expr) (own : Nat) (pure : Bool) (inner : Account) : Account :=
  ofValue source ⟨inner.value.emits, pure && inner.value.pure, false, own + inner.value.left⟩
    (inner.balance .taken)

def takenAll : List Account → Balance
  | [] => 0
  | a :: rest => a.balance .taken + takenAll rest

def listed (source : Expr) (own : Nat) (parts : List Account) : Account :=
  let values := parts.map value
  ofValue source ⟨anyEmits values, false, false, own + leftInAll values⟩ (takenAll parts)

/-- An assignment. Each end of the right side writes the place, which is
written again where its value is wanted. -/
def assignment (loc : Loc) (type : Ty) (op : BinaryOp) (lhs rhs : Account) : Account :=
  let source := Expr.binary loc type op lhs.source rhs.source
  let each := op = .assign && rhs.source.bare.isBlockLike
  let place := lhs.target (if each then .unstable else Lowering.assignSpill op rhs.source)
  let copies := if each then rhs.ends else 1
  let emits := if each then place.emits || rhs.emits true else true
  let parts := lhs.balance .placed + rhs.balance (if each then .stored else .taken)
  { ofValue source { place with emits } 0 with
    emits := fun stored => stored || emits
    balance := fun use =>
      if use = .dropped then parts + .ofCopies copies place.left
      else parts + .ofCopies (copies + 1) place.left }

def branching (source : Expr) (lhs rhs : Account) : Account :=
  ofValue source .temp (lhs.balance .taken + rhs.balance .stored)

def operation (source : Expr) (lhs rhs : Account) : Account :=
  let l := lhs.value.before rhs.value
  let r := rhs.value
  ofValue source ⟨l.emits, l.pure && r.pure, false, l.left + r.left⟩
    (lhs.balance .taken + rhs.balance .taken)

def binary (loc : Loc) (type : Ty) (op : BinaryOp) (lhs rhs : Account) : Account :=
  let source := Expr.binary loc type op lhs.source rhs.source
  match op with
  | .assign | .compound _ => assignment loc type op lhs rhs
  | .nullCoalesce => branching source lhs rhs
  | .and | .or =>
    if rhs.source.hoists then branching source lhs rhs else operation source lhs rhs
  | _ => operation source lhs rhs

def unary (loc : Loc) (type : Ty) (op : UnaryOp) (isPost : Bool) (operand : Account) : Account :=
  let source := Expr.unary loc type op isPost operand.source
  let place := operand.target .impure
  if op.isStep then
    { ofValue source (if isPost then .temp else { place with emits := true }) 0 with
      emits := fun _ => true
      balance := fun use =>
        if use = .dropped then operand.balance .placed
        else operand.balance .placed + .ofCopies 2 place.left }
  else around source 0 true operand

/-! ## Statements -/

def plainStmt (source : Expr) (balance : Balance) : Account :=
  ofStmt source (fun _ => true) 0 fun _ => balance

def takenOption : Option Account → Balance
  | none => 0
  | some a => a.balance .taken

def varDecl (loc : Loc) (var : Var) (init : Option Account) : Account :=
  plainStmt (.varDecl loc var (init.map source)) <|
    match init with
    | none => 0
    | some init =>
      if init.source.bare.isBlockLike then init.balance .stored else init.balance .taken

def sequenceEmits (stored : Bool) : List Account → Bool
  | [] => false
  | [last] => last.emits stored
  | first :: second :: rest => first.emits false || sequenceEmits stored (second :: rest)

def sequenceEnds : List Account → Nat
  | [] => 0
  | [last] => last.ends
  | _ :: second :: rest => sequenceEnds (second :: rest)

def sequenceBalance (stored : Bool) : List Account → Balance
  | [] => 0
  | [last] => last.balance (.ofStmt stored)
  | first :: second :: rest =>
    first.balance .dropped + sequenceBalance stored (second :: rest)

def block (loc : Loc) (type : Ty) (exprs : List Account) : Account :=
  let node := ofStmt (.block loc type (exprs.map source)) (sequenceEmits · exprs)
    (sequenceEnds exprs) (sequenceBalance · exprs)
  if exprs.isEmpty then { node with value := .plain, target := fun _ => .plain } else node

def ite (loc : Loc) (type : Ty) (cond : Account) (onTrue onFalse : Option Account) : Account :=
  ofStmt (.ite loc type cond.source (onTrue.map source) (onFalse.map source))
    (fun _ => true) (scopeEnds onTrue + scopeEnds onFalse) fun stored =>
      cond.balance .taken + (scope onTrue stored + scope onFalse stored)

def forIn (loc : Loc) (var : Var) (iterator : Account) (body : Option Account) : Account :=
  plainStmt (.forIn loc var iterator.source (body.map source))
    (iterator.balance .taken + scope body false)

def loop (loc : Loc) (test : LoopTest) (cond : Account) (body : Option Account) : Account :=
  plainStmt (.loop loc test cond.source (body.map source)) (cond.balance .taken + scope body false)

def handlerEnds : List (Handler Account) → Nat
  | [] => 0
  | h :: rest => scopeEnds h.body + handlerEnds rest

def handlerBalance (stored : Bool) : List (Handler Account) → Balance
  | [] => 0
  | h :: rest => scope h.body stored + handlerBalance stored rest

def tryCatch (loc : Loc) (type : Ty) (body : Option Account) (catches : List (Handler Account)) :
    Account :=
  ofStmt (.tryCatch loc type (body.map source)
      (catches.map fun h => ⟨h.var, h.body.map source⟩)) (fun _ => true)
    (scopeEnds body + handlerEnds catches) fun stored =>
      scope body stored + handlerBalance stored catches

def caseEnds : List (Case Account) → Nat
  | [] => 0
  | c :: rest => scopeEnds c.body + caseEnds rest

def caseBalance (stored : Bool) : List (Case Account) → Balance
  | [] => 0
  | c :: rest => takenAll c.values + scope c.body stored + caseBalance stored rest

def switch (loc : Loc) (type : Ty) (subject : Account) (cases : List (Case Account))
    (default : Option Account) : Account :=
  ofStmt (.switch loc type subject.source
      (cases.map fun c => ⟨c.values.map source, c.body.map source⟩)
      (default.map source)) (fun _ => true) (caseEnds cases + scopeEnds default)
    fun stored => subject.balance .taken + (caseBalance stored cases + scope default stored)

end Account

mutual

def account (x : Site) : Expr → Account
  | e@.omitted | e@(.const ..) | e@(.local ..) | e@(.typeRef ..) | e@(.ident ..) => .leaf e
  | e@(.brk _) | e@(.cont _) => .plainStmt e 0
  | .field loc type ref receiver => .field loc type ref (accountOption x receiver)
  | .index loc type base position => .index loc type (account x base) (account x position)
  | e@(.paren _ _ inner) => .wrap e (account x inner)
  | e@(.annot _ _ _ inner) => .wrap e (account x inner)
  | e@(.object loc _ fields) => .listed e (x.hit .object loc) (accountFields x fields)
  | e@(.array loc _ elements) => .listed e (x.hit .array loc) (accountList x elements)
  | e@(.call loc _ (.field _ _ _ receiver) args) =>
    .listed e (x.hit .call loc) ((accountOption x receiver).toList ++ accountList x args)
  | e@(.call loc _ callee args) =>
    .listed e (x.hit .call loc) (account x callee :: accountList x args)
  | e@(.new loc _ _ _ args) => .listed e (x.hit .new loc) (accountList x args)
  | .binary loc type op lhs rhs => .binary loc type op (account x lhs) (account x rhs)
  | .unary loc type op isPost operand => .unary loc type op isPost (account x operand)
  | e@(.function ..) => .ofValue e .plain 0
  | .varDecl loc var init => .varDecl loc var (accountOption x init)
  | .block loc type exprs => .block loc type (accountList x exprs)
  | .forIn loc var iterator body => .forIn loc var (account x iterator) (accountOption x body)
  | .ite loc type cond onTrue onFalse =>
    .ite loc type (account x cond) (accountOption x onTrue) (accountOption x onFalse)
  | .loop loc test cond body => .loop loc test (account x cond) (accountOption x body)
  | .switch loc type subject cases default =>
    .switch loc type (account x subject) (accountCases x cases) (accountOption x default)
  | e@(.ret _ value) => .plainStmt e (Account.takenOption (accountOption x value))
  | e@(.throw _ value) => .plainStmt e ((account x value).balance .taken)
  | e@(.cast loc _ checked inner) =>
    .around e (if checked.isSome then x.hit .cast loc else 0) checked.isNone (account x inner)
  | .tryCatch loc type body handlers =>
    .tryCatch loc type (accountOption x body) (accountHandlers x handlers)
  | e@(.enumParam _ _ value _ _) => .around e 0 true (account x value)
  | e@(.enumIndex _ value) => .around e 0 true (account x value)

def accountList (x : Site) : List Expr → List Account
  | [] => []
  | e :: rest => account x e :: accountList x rest

def accountOption (x : Site) : Option Expr → Option Account
  | none => none
  | some e => some (account x e)

def accountFields (x : Site) : List (FieldInit Expr) → List Account
  | [] => []
  | ⟨_, value⟩ :: rest => account x value :: accountFields x rest

def accountCases (x : Site) : List (Case Expr) → List (Case Account)
  | [] => []
  | ⟨values, body⟩ :: rest => ⟨accountList x values, accountOption x body⟩ :: accountCases x rest

def accountHandlers (x : Site) : List (Handler Expr) → List (Handler Account)
  | [] => []
  | ⟨var, body⟩ :: rest => ⟨var, accountOption x body⟩ :: accountHandlers x rest

end

end Normalize

end LuaBackend
