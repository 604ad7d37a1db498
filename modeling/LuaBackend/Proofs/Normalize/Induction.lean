import LuaBackend.Normalize.Basic
import LuaBackend.Proofs.Tree.Rebuild

/-!
# Facts about the lowering of every tree

The lowering of a tree is made by one function per kind of node from the
lowerings of its parts. A property that each of these functions keeps
(`Compositional`) holds of the lowering of every tree. The nodes that
lowering makes up on the way come from the same functions, so they have
the property as well.
-/

namespace LuaBackend.Normalize

open Lowering List

variable {loc : Loc} {type : Ty}

theorem lowerList_eq_map (es : List Expr) : lowerList es = es.map lower := by
  induction es with
  | nil => rfl
  | cons e rest ih => rw [lowerList, ih, map_cons]

theorem lowerOption_eq_map (part : Option Expr) : lowerOption part = part.map lower := by
  cases part <;> rfl

theorem lowerFields_eq_map (fields : List (FieldInit Expr)) :
    lowerFields fields = fields.map fun f => ⟨f.name, lower f.value⟩ := by
  induction fields with
  | nil => rfl
  | cons f rest ih => rw [lowerFields, ih, map_cons]

theorem lowerCases_eq_map (cases : List (Case Expr)) :
    lowerCases cases = cases.map fun c => ⟨c.values.map lower, c.body.map lower⟩ := by
  induction cases with
  | nil => rfl
  | cons c rest ih =>
    rw [lowerCases, ih, map_cons, lowerList_eq_map, lowerOption_eq_map]

theorem lowerHandlers_eq_map (handlers : List (Handler Expr)) :
    lowerHandlers handlers = handlers.map fun h => ⟨h.var, h.body.map lower⟩ := by
  induction handlers with
  | nil => rfl
  | cons h rest ih => rw [lowerHandlers, ih, lowerOption_eq_map, map_cons]

/-- A callee that is no member is lowered as a value. -/
theorem lower_call {callee : Expr} {args : List Expr} (h : ∀ memberLoc memberType ref receiver,
      callee ≠ .field memberLoc memberType ref receiver) :
    lower (.call loc type callee args) = .call loc type (lower callee) (args.map lower) := by
  rw [← lowerList_eq_map]
  cases callee with
  | field => exact absurd rfl (h _ _ _ _)
  | _ => rfl

/-- Every way of making the lowering of a node keeps the property, where
parts whose statements are predicted are `Known` to keep to it. -/
structure Compositional (Known P : Lowering → Prop) : Prop where
  known (e : Expr) : Known (lower e)
  omitted : P (.leaf .omitted)
  const (loc : Loc) (type : Ty) (value : Const) : P (.leaf (.const loc type value))
  localVar (loc : Loc) (var : Var) : P (.leaf (.local loc var))
  typeRef (loc : Loc) (type : Ty) (path : TypePath) : P (.leaf (.typeRef loc type path))
  ident (loc : Loc) (type : Ty) (name : String) : P (.leaf (.ident loc type name))
  brk (loc : Loc) : P (.jump (.brk loc))
  cont (loc : Loc) : P (.jump (.cont loc))
  field (loc : Loc) (type : Ty) (ref : MemberRef) (receiver : Option Lowering) :
    (∀ r ∈ receiver, P r) → P (.field loc type ref receiver)
  index (loc : Loc) (type : Ty) (base position : Lowering) :
    P base → P position → P (.index loc type base position)
  paren (loc : Loc) (type : Ty) (inner : Lowering) : P inner → P (.paren loc type inner)
  annot (loc : Loc) (type : Ty) (name : String) (inner : Lowering) :
    P inner → P (.annot loc type name inner)
  object (loc : Loc) (type : Ty) (fields : List (FieldInit Lowering)) :
    (∀ f ∈ fields, P f.value) → P (.object loc type fields)
  array (loc : Loc) (type : Ty) (elements : List Lowering) :
    (∀ e ∈ elements, P e) → P (.array loc type elements)
  callMember (loc : Loc) (type : Ty) (memberLoc : Loc) (memberType : Ty) (ref : MemberRef)
    (receiver : Option Lowering) (args : List Lowering) :
    (∀ r ∈ receiver, P r) → (∀ a ∈ args, P a) →
      P (.callMember loc type memberLoc memberType ref receiver args)
  call (loc : Loc) (type : Ty) (callee : Lowering) (args : List Lowering) :
    (∀ memberLoc memberType ref receiver,
      callee.source ≠ .field memberLoc memberType ref receiver) →
    P callee → (∀ a ∈ args, P a) → P (.call loc type callee args)
  new (loc : Loc) (type : Ty) (cls : TypePath) (ctorType : Ty) (args : List Lowering) :
    (∀ a ∈ args, P a) → P (.new loc type cls ctorType args)
  binary (loc : Loc) (type : Ty) (op : BinaryOp) (lhs rhs : Lowering) :
    Known rhs → P lhs → P rhs → P (.binary loc type op lhs rhs)
  unary (loc : Loc) (type : Ty) (op : UnaryOp) (isPost : Bool) (operand : Lowering) :
    P operand → P (.unary loc type op isPost operand)
  function (loc : Loc) (type : Ty) (params : List (Param Expr)) (result : Ty)
    (body : Option Lowering) :
    (∀ b ∈ body, P b) → P (.function loc type params result body)
  varDecl (loc : Loc) (var : Var) (init : Option Lowering) :
    (∀ i ∈ init, P i) → P (.varDecl loc var init)
  block (loc : Loc) (type : Ty) (exprs : List Lowering) :
    (∀ e ∈ exprs, P e) → P (.block loc type exprs)
  forIn (loc : Loc) (var : Var) (iterator : Lowering) (body : Option Lowering) :
    P iterator → (∀ b ∈ body, P b) → P (.forIn loc var iterator body)
  ite (loc : Loc) (type : Ty) (cond : Lowering) (onTrue onFalse : Option Lowering) :
    P cond → (∀ t ∈ onTrue, P t) → (∀ f ∈ onFalse, P f) → P (.ite loc type cond onTrue onFalse)
  loop (loc : Loc) (test : LoopTest) (cond : Lowering) (body : Option Lowering) :
    Known cond → P cond → (∀ b ∈ body, P b) → P (.loop loc test cond body)
  switch (loc : Loc) (type : Ty) (subject : Lowering) (cases : List (Case Lowering))
    (default : Option Lowering) :
    P subject → (∀ c ∈ cases, ∀ v ∈ c.values, Known v) →
      (∀ c ∈ cases, (∀ v ∈ c.values, P v) ∧ ∀ b ∈ c.body, P b) →
      (∀ d ∈ default, P d) → P (.switch loc type subject cases default)
  ret (loc : Loc) (value : Option Lowering) : (∀ v ∈ value, P v) → P (.ret loc value)
  throw (loc : Loc) (value : Lowering) : P value → P (.throw loc value)
  cast (loc : Loc) (type : Ty) (checked : Option TypePath) (inner : Lowering) :
    P inner → P (.cast loc type checked inner)
  tryCatch (loc : Loc) (type : Ty) (body : Option Lowering) (handlers : List (Handler Lowering)) :
    (∀ b ∈ body, P b) → (∀ h ∈ handlers, ∀ b ∈ h.body, P b) → P (.tryCatch loc type body handlers)
  enumParam (loc : Loc) (type : Ty) (ctor : String) (slot : UInt32) (value : Lowering) :
    P value → P (.enumParam loc type ctor slot value)
  enumIndex (loc : Loc) (value : Lowering) : P value → P (.enumIndex loc value)

namespace Lowering

@[simp] theorem source_ofValue (e : Expr) (value : Norm Hoisted) : (ofValue e value).source = e := rfl

@[simp] theorem source_ofStmt (e : Expr) (stmt : Option Expr → Norm (List Expr)) :
    (ofStmt e stmt).source = e := rfl

@[simp] theorem source_binary (loc : Loc) (type : Ty) (op : BinaryOp) (lhs rhs : Lowering) :
    (binary loc type op lhs rhs).source = .binary loc type op lhs.source rhs.source := by
  unfold binary
  split <;> rfl

@[simp] theorem source_ret (loc : Loc) (value : Option Lowering) :
    (ret loc value).source = .ret loc (value.map source) := by
  cases value <;> rfl

@[simp] theorem source_varDecl (loc : Loc) (var : Var) (init : Option Lowering) :
    (varDecl loc var init).source = .varDecl loc var (init.map source) := by
  cases init <;> rfl

end Lowering

theorem source_mem_toList {part : Option Lowering} {l : Lowering} (h : l ∈ part) :
    l.source ∈ (part.map source).toList :=
  Option.mem_toList.2 (Option.mem_map_of_mem source h)

/-- The lowering of a node belongs to the node with the trees of its parts. -/
theorem source_lower_node {e : Expr} (h : e.isFunction = false) :
    (lower e).source = e.mapChildren fun c => (lower c).source := by
  cases e with
  | function => cases h
  | call loc type callee =>
    cases callee <;> simp [lower, Expr.mapChildren, lowerOption_eq_map, lowerList_eq_map,
      Function.comp_def, Lowering.call, Lowering.callMember, Lowering.field]
  | omitted | const | «local» | typeRef | ident | unary => rfl
  | _ => simp [lower, Expr.mapChildren, lowerOption_eq_map, lowerList_eq_map, lowerFields_eq_map,
      lowerCases_eq_map, lowerHandlers_eq_map, Function.comp_def, Lowering.field, Lowering.index,
      Lowering.paren, Lowering.annot, Lowering.object, Lowering.array, Lowering.new,
      Lowering.block, Lowering.forIn, Lowering.ite, Lowering.loop, Lowering.switch,
      Lowering.throw, Lowering.cast, Lowering.tryCatch, Lowering.enumParam, Lowering.enumIndex,
      Lowering.jump]

/-- The lowering of a tree belongs to that tree. -/
@[simp] theorem source_lower (e : Expr) : (lower e).source = e := by
  induction e using Expr.induction_on_children with
  | step e ih =>
  cases h : e.isFunction with
  | false => exact (source_lower_node h).trans (Expr.mapChildren_eq_self ih)
  | true =>
    cases e with
    | function loc type params result body =>
      cases body with
      | none => rfl
      | some b =>
        have hb : b ∈ (Expr.function loc type params result (some b)).children := by
          simp [Expr.children]
        exact congrArg (fun b => Expr.function loc type params result (some b)) (ih b hb)
    | _ => cases h

theorem source_lowerList (es : List Expr) : (lowerList es).map source = es := by
  simp [lowerList_eq_map, Function.comp_def]

theorem source_lowerOption (part : Option Expr) : (lowerOption part).map source = part := by
  simp [lowerOption_eq_map, Function.comp_def]

theorem source_lowerFields (fields : List (FieldInit Expr)) :
    (lowerFields fields).map (fun f => ⟨f.name, f.value.source⟩) = fields := by
  simp [lowerFields_eq_map, Function.comp_def]

theorem source_lowerCases (cases : List (Case Expr)) : (lowerCases cases).map
    (fun c => ⟨c.values.map source, c.body.map source⟩) = cases := by
  simp [lowerCases_eq_map, Function.comp_def]

theorem value_binary {op : BinaryOp} {lhs rhs : Expr} :
    (lower (.binary loc type op lhs rhs)).value =
      binaryValue loc type op (lower lhs) (lower rhs) := by
  rw [lower, binary]
  split
  · rfl
  · rfl

variable {Known P : Lowering → Prop}

/-- The values of cases are known to keep to the prediction. -/
theorem Compositional.knownCases (h : Compositional Known P) (cases : List (Case Expr)) :
    ∀ c ∈ Normalize.lowerCases cases, ∀ v ∈ c.values, Known v := by
  rw [lowerCases_eq_map]
  intro c hc v hv
  obtain ⟨_, -, rfl⟩ := mem_map.1 hc
  obtain ⟨e, -, rfl⟩ := mem_map.1 hv
  exact h.known e

mutual

/-- What every way of making a lowering keeps holds of every tree. -/
theorem Compositional.lower (h : Compositional Known P) : ∀ e : Expr, P (lower e)
  | .omitted => h.omitted
  | .const loc type value => h.const loc type value
  | .local loc var => h.localVar loc var
  | .typeRef loc type path => h.typeRef loc type path
  | .ident loc type name => h.ident loc type name
  | .brk loc => h.brk loc
  | .cont loc => h.cont loc
  | .field loc type ref receiver => h.field loc type ref _ (h.lowerOption receiver)
  | .index loc type base position => h.index loc type _ _ (h.lower base) (h.lower position)
  | .paren loc type inner => h.paren loc type _ (h.lower inner)
  | .annot loc type name inner => h.annot loc type name _ (h.lower inner)
  | .object loc type fields => h.object loc type _ (h.lowerFields fields)
  | .array loc type elements => h.array loc type _ (h.lowerList elements)
  | .call loc type callee args => by
    have hcallee := h.lower callee
    have hargs := h.lowerList args
    cases callee with
    | field memberLoc memberType ref receiver =>
      exact h.callMember loc type memberLoc memberType ref _ _ (h.lowerOption receiver) hargs
    | _ => exact h.call loc type _ _ (by simp) hcallee hargs
  | .new loc type cls ctorType args => h.new loc type cls ctorType _ (h.lowerList args)
  | .binary loc type op lhs rhs => h.binary loc type op _ _ (h.known rhs) (h.lower lhs) (h.lower rhs)
  | .unary loc type op isPost operand => h.unary loc type op isPost _ (h.lower operand)
  | .function loc type params result body =>
    h.function loc type params result _ (h.lowerOption body)
  | .varDecl loc var init => h.varDecl loc var _ (h.lowerOption init)
  | .block loc type exprs => h.block loc type _ (h.lowerList exprs)
  | .forIn loc var iterator body =>
    h.forIn loc var _ _ (h.lower iterator) (h.lowerOption body)
  | .ite loc type cond onTrue onFalse =>
    h.ite loc type _ _ _ (h.lower cond) (h.lowerOption onTrue) (h.lowerOption onFalse)
  | .loop loc test cond body => h.loop loc test _ _ (h.known cond) (h.lower cond) (h.lowerOption body)
  | .switch loc type subject cases default =>
    h.switch loc type _ _ _ (h.lower subject) (h.knownCases cases) (h.lowerCases cases)
      (h.lowerOption default)
  | .ret loc value => h.ret loc _ (h.lowerOption value)
  | .throw loc value => h.throw loc _ (h.lower value)
  | .cast loc type checked inner => h.cast loc type checked _ (h.lower inner)
  | .tryCatch loc type body handlers =>
    h.tryCatch loc type _ _ (h.lowerOption body) (h.lowerHandlers handlers)
  | .enumParam loc type value ctor slot => h.enumParam loc type ctor slot _ (h.lower value)
  | .enumIndex loc value => h.enumIndex loc _ (h.lower value)

theorem Compositional.lowerList (h : Compositional Known P) :
    ∀ es : List Expr, ∀ l ∈ Normalize.lowerList es, P l
  | [] => fun _ hl => nomatch hl
  | e :: rest => forall_mem_cons.2 ⟨h.lower e, h.lowerList rest⟩

theorem Compositional.lowerOption (h : Compositional Known P) :
    ∀ part : Option Expr, ∀ l ∈ Normalize.lowerOption part, P l
  | none => fun _ hl => nomatch hl
  | some e => fun _ hl => Option.some.inj hl ▸ h.lower e

theorem Compositional.lowerFields (h : Compositional Known P) :
    ∀ fields : List (FieldInit Expr), ∀ f ∈ Normalize.lowerFields fields, P f.value
  | [] => fun _ hf => nomatch hf
  | ⟨_, value⟩ :: rest => forall_mem_cons.2 ⟨h.lower value, h.lowerFields rest⟩

theorem Compositional.lowerCases (h : Compositional Known P) :
    ∀ cases : List (Case Expr), ∀ c ∈ Normalize.lowerCases cases,
      (∀ v ∈ c.values, P v) ∧ ∀ b ∈ c.body, P b
  | [] => fun _ hc => nomatch hc
  | ⟨values, body⟩ :: rest =>
    forall_mem_cons.2 ⟨⟨h.lowerList values, h.lowerOption body⟩, h.lowerCases rest⟩

theorem Compositional.lowerHandlers (h : Compositional Known P) :
    ∀ handlers : List (Handler Expr), ∀ c ∈ Normalize.lowerHandlers handlers, ∀ b ∈ c.body, P b
  | [] => fun _ hc => nomatch hc
  | ⟨_, body⟩ :: rest => forall_mem_cons.2 ⟨h.lowerOption body, h.lowerHandlers rest⟩

end

end LuaBackend.Normalize
