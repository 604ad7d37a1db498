import LuaBackend.Proofs.Emit.NormalForm
import LuaBackend.Proofs.Lua.Places
import LuaBackend.Proofs.Normalize.Vocabulary

/-!
# How the lines of generated code begin

A line of Lua that begins with a parenthesis goes on with the call before
it. The value of a node begins with its leftmost part: through members,
elements, calls, operators and wrappers it comes down to whether the first
of them is put in parentheses (`opens`). A call that begins with a
parenthesis is set apart by a semicolon. An assignment is not, so the
lines of generated code that begin with a parenthesis are the assignments
to such a place.
-/

namespace LuaBackend.Emit

open Emission

mutual

def opens : Expr → Bool
  | .const _ _ (.float value) => value.isNaN
  | .paren .. | .block .. => true
  | .annot _ _ _ inner | .cast _ _ none inner => opens inner
  | .index _ _ base _ | .enumParam _ _ base _ _ | .enumIndex _ base => !isHead base || opens base
  -- Neither a static member nor one of `super` begins with its receiver, and a method taken as
  -- a value begins with the name of the function that binds it.
  | .field _ _ ref (some receiver) =>
    !(ref.access = .static || ref.access = .enumCtor) && !receiver.isSuper
      && ref.access ≠ .closure && (!isHead receiver || opens receiver)
  | .binary _ type op lhs rhs =>
    match Lua.rendering op lhs.type rhs.type type with
    | .operator op =>
      precedence lhs < op.precedence || (op.isRightAssoc && precedence lhs = op.precedence)
        || opens lhs
    | _ => false
  | .call _ _ callee args =>
    match callee.bare with
    | .ident _ _ name => name = "__call__" && firstOpens args
    | .const _ _ .super => false
    | .field _ _ ref (some receiver) =>
      if !isMethodCall ref then !isHead callee || opens callee
      else if receiver.isSuper then false
      else if Lua.isName ref.target then receiverOpens callee
      else !isHead callee || opens callee
    | _ => !isHead callee || opens callee
  | _ => false

def receiverOpens : Expr → Bool
  | .field _ _ _ (some receiver) => !isHead receiver || opens receiver
  | .paren _ _ inner | .annot _ _ _ inner => receiverOpens inner
  | _ => false

def firstOpens : List Expr → Bool
  | [] => false
  | e :: _ => !isHead e || opens e

end

/-- The code begins with a parenthesis if and only if the node opens. -/
structure Fronts (e : Expr) : Prop where
  value : ∀ scope, Ensures scope (emit e).value fun v => v.opens = opens e
  receiver : ∀ act ∈ (emit e).receiver, ∀ scope,
    Ensures scope act fun v => v.opens = receiverOpens e

variable {e : Expr} {scope : Scope}

/-- A node that no member is accessed through. -/
theorem Fronts.ofStmt {source : Expr} {value : EmitM Lua.Expr} {stmt : Bool → EmitM Lua.Block}
    (hemit : emit e = .ofStmt source value stmt)
    (hvalue : ∀ scope, Ensures scope value fun v => v.opens = opens e) : Fronts e where
  value := hemit ▸ hvalue
  receiver _ hact := by
    rw [hemit] at hact
    cases hact

theorem Fronts.stmtOnly {source : Expr} {stmt : Bool → EmitM Lua.Block}
    (hemit : emit e = .stmtOnly source stmt) : Fronts e :=
  .ofStmt hemit fun _ => ensures_unsupported

/-- What cannot be accessed is put in parentheses. -/
theorem Fronts.head (h : Fronts e) :
    Ensures scope (emit e).head fun v => v.opens = (!isHead e || opens e) := by
  refine (h.value scope).map fun v hv => ?_
  rw [source_emit]
  cases hhead : isHead e with
  | true => exact hv
  | false => rfl

/-- An operand opens if it opens or needs parentheses. -/
theorem Fronts.operand (h : Fronts e) (parent : Nat) (tighter : Bool) :
    Ensures scope ((emit e).operand parent tighter) fun v =>
      v.opens = (precedence e < parent || (tighter && precedence e = parent) || opens e) := by
  refine (h.value scope).map fun v hv => ?_
  rw [source_emit]
  cases hparens : decide (precedence e < parent) || (tighter && decide (precedence e = parent)) with
  | true => rw [if_pos rfl, Bool.true_or]; rfl
  | false => rw [if_neg Bool.false_ne_true, Bool.false_or, hv]

theorem fronts_const (loc : Loc) (type : Ty) (value : Const) : Fronts (.const loc type value) := by
  refine .ofStmt rfl fun scope => ?_
  cases value with
  | super => exact ensures_unsupported
  | _ => exact ensures_pure rfl

variable {loc : Loc} {type : Ty}

section

variable {receiver : Option Expr} (h : ∀ r ∈ receiver.toList, Fronts r)
include h

/-- A member begins with its receiver. -/
theorem ensures_opens_fieldValue {ref : MemberRef} :
    Ensures scope (fieldValue loc ref (emitOption receiver)) fun v =>
      v.opens = opens (.field loc type ref receiver) := by
  unfold fieldValue
  cases receiver with
  | none =>
    dsimp only [emitOption]
    split
    · split
      · exact ensures_unsupported
      · exact ensures_pure rfl
    · exact ensures_unsupported
  | some r =>
    dsimp only [emitOption]
    rw [source_emit, opens]
    cases hstatic : decide (ref.access = .static) || decide (ref.access = .enumCtor) with
    | true =>
      rw [if_pos rfl]
      split
      · exact ensures_unsupported
      · exact ensures_pure rfl
    | false =>
      rw [if_neg Bool.false_ne_true]
      cases hsuper : r.isSuper with
      | true =>
        rw [if_pos rfl]
        refine ensures_read ?_
        split
        · exact ensures_unsupported
        · split <;> exact ensures_pure rfl
      | false =>
        rw [if_neg Bool.false_ne_true]
        refine (h r (.head _)).head.bind fun object hobject => ?_
        split
        · rename_i haccess
          rw [haccess]
          exact ensures_pure hobject
        · rename_i haccess
          rw [haccess]
          exact ensures_pure rfl
        · rename_i _ haccess
          have hclosure : ref.access ≠ .closure := haccess
          rw [decide_eq_true hclosure]
          exact ensures_pure hobject

theorem fronts_field {ref : MemberRef} : Fronts (.field loc type ref receiver) where
  value _ := ensures_opens_fieldValue h
  receiver act hact scope := by
    cases receiver with
    | none => cases hact
    | some r =>
      cases hact
      exact (h r (.head _)).head

end

section

variable (h : Fronts e)
include h

theorem Fronts.index (position : Expr) :
    Fronts (.index loc type e position) :=
  .ofStmt rfl fun _ => h.head.bind fun _ hobject => ensures_true.map fun _ _ => hobject

theorem Fronts.enumParam {ctor : String} {slot : UInt32} : Fronts (.enumParam loc type e ctor slot) :=
  .ofStmt rfl fun _ => h.head.map fun _ hobject => hobject

theorem Fronts.enumIndex : Fronts (.enumIndex loc e) :=
  .ofStmt rfl fun _ => h.head.map fun _ hobject => hobject

theorem Fronts.paren : Fronts (.paren loc type e) where
  value scope := (h.value scope).map fun _ _ => rfl
  receiver := h.receiver

theorem Fronts.annot {name : String} : Fronts (.annot loc type name e) where
  value := h.value
  receiver := h.receiver

theorem Fronts.cast {checked : Option TypePath} :
    Fronts (.cast loc type checked e) := by
  refine .ofStmt rfl fun scope => ?_
  cases checked with
  | none => exact h.value scope
  | some => exact ensures_true.map fun _ _ => rfl

end

/-- An operation begins with its left operand, unless a helper does it. -/
theorem Fronts.operation {op : BinaryOp} (h : Fronts e) (rhs : Expr) :
    Ensures scope (operation op type (emit e) (emit rhs)) fun v =>
      v.opens = opens (.binary loc type op e rhs) := by
  unfold Emission.operation
  rw [source_emit, source_emit, opens]
  cases Lua.rendering op e.type rhs.type type with
  | helper => exact ensures_true.bind fun _ _ => ensures_true.map fun _ _ => rfl
  | operator => exact (h.operand _ _).bind fun _ hv => ensures_true.map fun _ _ => hv
  | none => exact ensures_throw

theorem Fronts.binary {op : BinaryOp} (h : Fronts e) (rhs : Expr) :
    Fronts (.binary loc type op e rhs) := by
  cases op with
  | assign | compound | nullCoalesce => exact .stmtOnly rfl
  | _ => exact .ofStmt rfl fun _ => h.operation rhs

theorem fronts_unary {op : UnaryOp} {isPost : Bool} (e : Expr) :
    Fronts (.unary loc type op isPost e) := by
  cases op with
  | not | neg | negBits => exact .ofStmt rfl fun _ => ensures_true.map fun _ _ => rfl
  | increment | decrement => exact .stmtOnly rfl

section Calls

variable {callee : Expr} {args : List Expr}

theorem Fronts.callValue (h : Fronts callee) :
    Ensures scope (callValue (emit callee) (emitList args)) fun v =>
      v.opens = (!isHead callee || opens callee) :=
  h.head.bind fun _ hf => ensures_true.map fun _ _ => hf

/-- Only a call of a function value begins with what it calls. -/
theorem ensures_opens_intrinsic {loc nameLoc : Loc} {name : String} (h : ∀ e ∈ args, Fronts e) :
    Ensures scope (intrinsic loc name nameLoc (emitList args)) fun v =>
      v.opens = (name = "__call__" && firstOpens args) := by
  by_cases hname : name = "__call__"
  · subst hname
    cases args with
    | nil => exact ensures_unsupported
    | cons f => exact (h f (.head _)).callValue
  · rw [decide_eq_false hname, Bool.false_and]
    unfold intrinsic
    split
    · split
      · exact ensures_unsupported
      · exact ensures_true.map fun _ _ => rfl
    · split
      · split
        · exact ensures_unsupported
        · exact ensures_true.map fun _ _ => rfl
      · split
        · split
          · exact ensures_true.map fun _ _ => rfl
          · exact ensures_unsupported
        · exact ensures_unsupported

theorem ensures_opens_callSuper :
    Ensures scope (callSuper loc (emitList args)) fun v => v.opens = false := by
  refine ensures_read ?_
  split
  · exact ensures_unsupported
  · split
    · exact ensures_unsupported
    · exact ensures_true.map fun _ _ => rfl

/-- A method begins with its receiver, any other member with its value. -/
theorem Fronts.callMember {loc loc' : Loc} {type : Ty} {ref : MemberRef} {receiver : Expr}
    (h : Fronts callee) (hbare : callee.bare = .field loc' type ref (some receiver)) :
    Ensures scope (callMember loc (emit callee) ref receiver (emitList args)) fun v =>
      v.opens = if !isMethodCall ref then !isHead callee || opens callee
        else if receiver.isSuper then false
        else if Lua.isName ref.target then receiverOpens callee
        else !isHead callee || opens callee := by
  -- What the member is accessed on is there, so the call never falls back on the value.
  obtain ⟨object, hobject⟩ := exists_receiver_of_bare hbare
  unfold Emission.callMember
  rw [hobject]
  split
  · exact h.callValue
  · split
    · refine ensures_read ?_
      dsimp only
      split
      · exact ensures_unsupported
      · exact ensures_true.map fun _ _ => rfl
    · dsimp only
      split
      · exact (h.receiver object hobject scope).bind fun _ hv => ensures_true.map fun _ _ => hv
      · exact h.callValue

theorem Fronts.call (h : Fronts callee) (ha : ∀ e ∈ args, Fronts e) :
    Fronts (.call loc type callee args) := by
  refine .ofStmt rfl fun scope => ?_
  rw [source_emit, opens]
  have hvalue : Ensures scope (Emission.callValue (emit callee) (emitList args)) fun v =>
      v.opens = (!isHead callee || opens callee) := h.callValue
  cases hbare : callee.bare with
  | ident => exact ensures_opens_intrinsic ha
  | const loc type value =>
    cases value with
    | super => exact ensures_opens_callSuper
    | _ => exact hvalue
  | field loc type ref receiver =>
    cases receiver with
    | none => exact hvalue
    | some => exact h.callMember hbare
  | _ => exact hvalue

end Calls

/-! ## Trees -/

theorem fronts (e : Expr) : Fronts e := by
  induction e using Expr.induction_on_children with
  | step e ih =>
  cases e with
  | omitted | «local» | typeRef => exact .ofStmt rfl fun _ => ensures_pure rfl
  | const loc type value => exact fronts_const loc type value
  | ident => exact .ofStmt rfl fun _ => ensures_unsupported
  | field => exact fronts_field ih
  | index loc type base position => exact (ih base (.head _)).index position
  | paren loc type inner => exact (ih inner (.head _)).paren
  | annot loc type name inner => exact (ih inner (.head _)).annot
  | object | array | new => exact .ofStmt rfl fun _ => ensures_true.map fun _ _ => rfl
  | call loc type callee =>
    exact (ih callee (.head _)).call fun arg harg => ih arg (.tail _ harg)
  | binary loc type op lhs rhs => exact (ih lhs (.head _)).binary rhs
  | unary loc type op isPost operand => exact fronts_unary operand
  | function => exact .ofStmt rfl fun _ => ensures_true.map fun _ _ => rfl
  | varDecl loc var init => cases init <;> exact .stmtOnly rfl
  | ret loc value => cases value <;> exact .stmtOnly rfl
  | block =>
    exact ⟨fun _ => ensures_true.map fun _ _ => rfl, fun _ hact => by cases hact⟩
  | ite =>
    exact ⟨fun _ => ensures_unsupported, fun _ hact => by cases hact⟩
  | forIn | loop | switch | brk | cont | throw | tryCatch => exact .stmtOnly rfl
  | cast loc type checked inner => exact (ih inner (.head _)).cast
  | enumParam loc type value => exact (ih value (.head _)).enumParam
  | enumIndex loc value => exact (ih value (.head _)).enumIndex

/-- **The lines that begin with a parenthesis are assignments.** Let the
names of a tree be identifiers, without the intrinsics that take text over
as code. Wherever writing its normal form succeeds, there are as many lines
that begin with a parenthesis as there are assignments, at any depth, to a
place that is written with one: calls and other statements never begin so.
There are none if the normal form stores into nothing that opens. -/
theorem opening_lines_are_stores {t : Expr} {s s' : TempSupply} {context context' : Context}
    {text : String} (hplain : e.Worded fun w => w.isPlain = true) (hs : Normalize.Reserved s)
    (hnormal : Normalize.normalize e none s = .ok t s')
    (hb : Based Lua.IsName context.scope) (hlayout : context.layout.Blank)
    (hrun : statements t context = .ok text context') :
    (∃ code label, blockOf t context.scope context.nextLabel = .ok code label ∧
      text = Lua.Stmt.texts context.layout code ∧
      (Lua.openingLines text).length = (Lua.Stmt.placesIn code).countP Lua.Expr.opens) ∧
    ((t.Throughout fun n => ∀ target ∈ n.stored?, opens target = false) →
      Lua.openingLines text = []) := by
  obtain ⟨code, label, hcode, rfl⟩ := blockOf_of_statements hrun
  have hN : ∀ name ∈ broughtNames, Lua.IsName name := fun name h =>
    (isFreeName_of_mem_broughtNames name h).1
  have hwords : t.Worded (SpelledBy Lua.IsName) := by
    have ht : t.Worded fun w => w.isPlain = true :=
      Normalize.worded_normalize (fun v hv => Bool.or_eq_true_iff.2 (.inl hv)) hplain hs hnormal
    exact ht.mono fun n hn w hw => spelledBy_isName (hn w hw)
  have hcount : (Lua.openingLines (Lua.Stmt.texts context.layout code)).length =
      (Lua.Stmt.placesIn code).countP Lua.Expr.opens := by
    -- Counting asks nothing of the places.
    have hspells : Spells Lua.IsName (fun _ => True) t :=
      ⟨hwords, hwords.mono fun _ _ _ _ _ _ => ensures_true⟩
    exact Lua.length_openingLines_texts hlayout (hspells.formed hN hb _ _ _ hcode)
  refine ⟨⟨code, label, hcode, rfl, hcount⟩, fun hstores => ?_⟩
  have hspells : Spells Lua.IsName (fun place => place.opens = false) t := by
    refine ⟨hwords, hstores.mono fun n hn target ht scope _ => ?_⟩
    exact ((fronts target).value scope).mono fun _ hv => hv.trans (hn target ht)
  have hnone : (Lua.Stmt.placesIn code).countP Lua.Expr.opens = 0 :=
    List.countP_eq_zero.2 fun place hplace => Bool.eq_false_iff.1
      (Lua.Stmt.forall_mem_placesIn code (hspells.formed hN hb _ _ _ hcode) place hplace)
  exact List.eq_nil_of_length_eq_zero (hcount.trans hnone)

/-- `f(); (f)(1); a.x = 1;`: the second call is set apart. -/
def parenthesizedCall : Expr :=
  let f : Expr := .local {} ⟨1, "f", .dynamic⟩
  let a : Expr := .local {} ⟨2, "a", .dynamic⟩
  .statements {} [.call {} .dynamic f [], .call {} .dynamic (.paren {} .dynamic f) [.intLit {} 1],
    .mkAssign {} (.field {} .int { access := .inst, name := "x" } (some a)) (.intLit {} 1)]

theorem opening_lines_are_stores_parenthesizedCall :
    (parenthesizedCall.Worded fun w => w.isPlain = true) ∧ Normalize.Reserved .all ∧
      Normalize.normalize parenthesizedCall none .all = .ok parenthesizedCall .all ∧
      statements parenthesizedCall {} = .ok "f()\n;(f)(1)\na.x = 1\n" {} ∧
      (parenthesizedCall.Throughout fun n => ∀ target ∈ n.stored?, opens target = false) ∧
      Lua.openingLines "f()\n;(f)(1)\na.x = 1\n" = [] := by
  have hplain : parenthesizedCall.Worded fun w => w.isPlain = true := by decide
  have hnormal : Normalize.normalize parenthesizedCall none .all = .ok parenthesizedCall .all := rfl
  have hbase : Based Lua.IsName {} := fun h => absurd h (by decide)
  have hlayout : Lua.Layout.Blank {} := by decide
  have hrun : statements parenthesizedCall {} = .ok "f()\n;(f)(1)\na.x = 1\n" {} := rfl
  have hstores : parenthesizedCall.Throughout fun n => ∀ target ∈ n.stored?, opens target = false :=
    by decide
  exact ⟨hplain, Normalize.reserved_all, hnormal, hrun, hstores,
    (opening_lines_are_stores hplain Normalize.reserved_all hnormal hbase hlayout hrun).2 hstores⟩

/-- `f(); (a).x = 1;` -/
def storeIntoParens : Expr :=
  let f : Expr := .local {} ⟨1, "f", .dynamic⟩
  let a : Expr := .local {} ⟨2, "a", .dynamic⟩
  .statements {} [.call {} .dynamic f [], .mkAssign {}
    (.field {} .int { access := .inst, name := "x" } (some (.paren {} .dynamic a))) (.intLit {} 1)]

/-- **An assignment is not set apart from the call before it**: Lua reads the
two lines as one, which stores into the result of `f()(a)`. -/
theorem store_into_parens_continues_call : (storeIntoParens.Worded fun w => w.isPlain = true) ∧
    Normalize.normalize storeIntoParens none .all = .ok storeIntoParens .all ∧
    statements storeIntoParens {} = .ok "f()\n(a).x = 1\n" {} ∧
    Lua.openingLines "f()\n(a).x = 1\n" = ["(a).x = 1".toList] :=
  ⟨by decide, rfl, rfl, by decide⟩

end LuaBackend.Emit
