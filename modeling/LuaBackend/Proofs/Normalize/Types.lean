import LuaBackend.Lua.Operator
import LuaBackend.Proofs.Normalize.Discipline.Statements
import LuaBackend.Proofs.Tree.MapChildren

/-!
# Types and the choice of operators

Two operators become one or another operator of Lua by the types of their
operands: adding strings concatenates them, and the remainder of floats is
a function. Normalization keeps the choice if the types of the program are
what the builders of its nodes derive (`WellTyped`): a value keeps of its
type whether it is a string or a float (`Alike`), and all operators of a
normalized tree come from operators of the program that are written the
same way (`Comes`).
-/

namespace LuaBackend

open List Bool

/-- Neither or both are strings, and neither or both are floats. -/
structure Ty.Alike (a b : Ty) : Prop where
  isString : b.isString = a.isString
  isFloat : b.isFloat = a.isFloat

namespace Ty.Alike

variable {a b c : Ty}

theorem refl : Alike a a := ⟨rfl, rfl⟩

theorem trans (h : Alike a b) (h' : Alike b c) : Alike a c :=
  ⟨h'.isString.trans h.isString, h'.isFloat.trans h.isFloat⟩

theorem of_kind {kind : TypeKind} (ha : a.unwrap.isKind kind = true) (hb : b.isString = false)
    (hb' : b.isFloat = false) (hk : kind ≠ .string) (hk' : kind ≠ .float) : Alike a b := by
  have hkind : a.unwrap.kind? = some kind := eq_of_beq ha
  refine ⟨hb.trans (Eq.symm ?_), hb'.trans (Eq.symm ?_)⟩
  · rw [Ty.isString, isKind, hkind]
    exact beq_false_of_ne fun h => hk (Option.some.inj h)
  · rw [Ty.isFloat, isKind, hkind]
    exact beq_false_of_ne fun h => hk' (Option.some.inj h)

/-- What yields nothing is neither a string nor a float, and nor is null. -/
theorem of_nothing (h : (a.isUntyped || a.isKind .void) = true) : Alike a (.nullable .dynamic) := by
  cases a with
  | untyped => exact ⟨rfl, rfl⟩
  | of kind =>
    have hvoid : kind = .void := Option.some.inj (eq_of_beq ((Bool.false_or _).symm.trans h))
    subst hvoid
    exact ⟨rfl, rfl⟩

theorem dynamic : Alike a (if a.isUntyped then .dynamic else a) := by
  cases a with
  | untyped => exact ⟨rfl, rfl⟩
  | of => exact refl

end Ty.Alike

/-- A rendering only asks which types are strings and which floats. -/
theorem Lua.rendering_congr {op : BinaryOp} {l l' r r' t t' : Ty} (hl : l.Alike l')
    (hr : r.Alike r') (ht : t.Alike t') : Lua.rendering op l' r' t' = Lua.rendering op l r t := by
  unfold Lua.rendering
  rw [hl.isString, hl.isFloat, hr.isString, hr.isFloat, ht.isString, ht.isFloat]

/-- The operation of an operator; a compound assignment stores its result. -/
def BinaryOp.operation : BinaryOp → BinaryOp
  | compound op => op
  | op => op

namespace Normalize

open Expr Lowering

variable {n e : Expr}

def DerivesType : Expr → Prop
  | .paren _ type inner | .annot _ type _ inner => type = inner.type
  | .unary _ type op _ operand => type = op.resultType operand.type
  | .binary _ type op lhs rhs =>
    op.isAssignment = true ∨ op = .and ∨ op = .or ∨ op = .nullCoalesce →
      type = op.resultType lhs.type rhs.type
  | .block _ type [] => type.isKind .void = true
  | .field _ type ref _ => ref.isMethod = true → type.unwrap.isKind .function = true
  | _ => True

/-- All nodes have types, and those that lowering builds again derive theirs. -/
def WellTyped : Expr → Prop := Throughout fun n =>
  (n = .omitted ∨ n.type.isUntyped = false) ∧ DerivesType n

/-! ## Operators of normalized trees -/

/-- Where an operator of a normalized tree comes from. -/
inductive Comes (e : Expr) : Expr → Prop
  /-- The node is no operator. -/
  | other {n : Expr} (h : n.isBinary = false) : Comes e n
  /-- Lowering stores a value or tests it. -/
  | added {loc : Loc} {type : Ty} {op : BinaryOp} {l r : Expr}
      (h : op = .assign ∨ op = .eq ∨ op = .or) : Comes e (.binary loc type op l r)
  /-- The operator is one of the tree, with the same rendering. -/
  | rebuilt {loc : Loc} {type : Ty} {op : BinaryOp} {lhs rhs l r : Expr}
      (h : e.Holds (.binary loc type op lhs rhs))
      (same : Lua.rendering op.operation l.type r.type type =
        Lua.rendering op.operation lhs.type rhs.type type) : Comes e (.binary loc type op l r)
  /-- The operator is a step of the tree, with the rendering that the type
  of its operand asks for. -/
  | stepped {loc : Loc} {type : Ty} {op : UnaryOp} {isPost : Bool} {operand p : Expr}
      (h : e.Holds (.unary loc type op isPost operand)) (step : op.isStep = true)
      (same : Lua.rendering op.stepOp p.type .int p.type =
        Lua.rendering op.stepOp operand.type .int operand.type) :
      Comes e (.binary loc p.type (.compound op.stepOp) p (.intLit loc 1))

theorem comes_of_holds (h : e.Holds n) : Comes e n := by
  cases n with
  | binary => exact .rebuilt h rfl
  | _ => exact .other rfl

theorem throughout_comes (h : e.Holds n) : n.Throughout (Comes e) := by
  induction n using induction_on_children with
  | _ n ih =>
    exact throughout_iff.2 ⟨comes_of_holds h, fun c hc => ih c hc (h.trans (.inside hc .self))⟩

theorem WellTyped.upToDate (h : WellTyped e) : e.Throughout UpToDate := by
  refine Throughout.mono h fun n hn => ?_
  cases n with
  | paren loc type inner => exact congrArg (paren loc · inner) hn.2.symm
  | annot loc type name inner => exact congrArg (annot loc · name inner) hn.2.symm
  | _ => rfl

def typing (e : Expr) : TypeRule fun n => WellTyped n ∧ e.Holds n where
  like := Ty.Alike
  made := Comes e
  like_refl := .refl
  like_trans := .trans
  like_temp := .dynamic
  like_nothing := .of_nothing
  like_empty h := .of_nothing (or_eq_true_iff.2 (.inr h.1.node.2))
  like_wrapped {n _ _} h hc hlike := by
    have hderived := h.1.node.2
    cases n with
    | paren | annot =>
      cases mem_singleton.1 hc
      exact (show _ = _ from hderived) ▸ hlike
    | _ => cases hc
  like_unary {_ _ _ op _ _} h hlike := by
    rw [show _ = _ from h.1.node.2]
    cases op with
    | not => exact .refl
    | _ => exact hlike
  like_method h hf := by
    have hmethod := (and_eq_true_iff.1 (and_eq_true_iff.1 hf).1).1
    exact .of_kind (h.1.node.2 hmethod) rfl rfl nofun nofun
  binary {_ _ op _ _} h := by
    have hderived := h.1.node.2
    refine ⟨fun hl hr => .rebuilt h.2 (Lua.rendering_congr hl hr .refl), fun hop hlike => ?_,
      fun hop => ?_, fun _ => ?_⟩
    · rw [hderived (.inl hop)]
      cases op with
      | assign | compound => exact hlike
      | _ => exact absurd hop false_ne_true
    · rw [hderived (.inr (hop.imp_right .inl))]
      rcases hop with rfl | rfl
      · exact .refl
      · exact .refl
    · obtain homitted | htyped := h.1.node.1
      · cases homitted
      · exact (if_neg (eq_false_iff.1 htyped)) ▸ .refl
  made_step h hop hlike := .stepped h.2 hop (Lua.rendering_congr hlike .refl hlike)
  made_plain := .added
  made_other := .other

theorem isBinary_eq_false (hstmt : n.isStatementOnly = true) (hplain : n.isMutating = false) :
    n.isBinary = false := by
  cases n with
  | binary => simp [isStatementOnly, isBlockLike, isTransfer, isDeclOrLoop, hplain] at hstmt
  | _ => rfl

def operators (e : Expr) : Discipline where
  supply _ := True
  word _ := True
  source n := WellTyped n ∧ e.Holds n
  types := typing e
  assignable _ := True
  value := Throughout (Comes e)
  place := Throughout (Comes e)
  stmt := Throughout (Comes e)
  supply_next _ _ := ⟨trivial, trivial⟩
  source_part h hc := ⟨h.1.child hc, h.2.trans (.inside hc .self)⟩
  source_word _ _ := trivial
  source_default {loc type result params body _ d} h hp hd := by
    have hc : d ∈ (Expr.function loc type params result body).children :=
      mem_append_left _ (mem_filterMap.2 ⟨_, hp, hd⟩)
    rw [retyped_of_upToDate (WellTyped.upToDate (h.1.child hc))]
    exact throughout_comes (h.2.trans (.inside hc .self))
  assignable_binary _ _ := trivial
  assignable_unary _ _ := trivial
  assignable_local := trivial
  assignable_wrapped _ _ := trivial
  value_of_place := id
  stmt_of_value := id
  place_of_value _ _ := id
  place_node {n} h _ hc := by
    refine throughout_iff.2 ⟨.other ?_, hc⟩
    cases n with
    | binary => exact absurd h false_ne_true
    | _ => rfl
  value_node _ hmade _ hv hs hw := throughout_iff.2 ⟨hmade, fun c hc =>
    (mem_children_iff.1 hc).elim (hv c) fun hc => hc.elim (hs c) (hw c)⟩
  stmt_node {n} hstmt hplain _ hv hs := by
    refine throughout_iff.2 ⟨.other (isBinary_eq_false hstmt hplain), fun c hc => ?_⟩
    rw [mem_children_iff, wrapped_of_isStatementOnly hstmt] at hc
    exact hc.elim (hv c) fun hc => hc.elim (hs c) fun hc => absurd hc not_mem_nil
  stmt_assign _ hmade hp hv := throughout_iff.2
    ⟨hmade, forall_mem_cons.2 ⟨hp, forall_mem_singleton.2 hv⟩⟩

section Operands

variable {loc : Loc} {type : Ty} {op : BinaryOp} {lhs rhs : Expr} {s : TempSupply}

def Likened (loc : Loc) (type : Ty) (op : BinaryOp) (lhs rhs n : Expr) : Prop :=
  ∃ l r, n = .binary loc type op l r ∧ lhs.type.Alike l.type ∧ rhs.type.Alike r.type

/-- Like operands are rendered the same way. -/
theorem Likened.rendering (h : Likened loc type op lhs rhs n) :
    ∃ l r, n = .binary loc type op l r ∧ Lua.rendering op.operation l.type r.type type =
      Lua.rendering op.operation lhs.type rhs.type type := by
  obtain ⟨l, r, hn, hl, hr⟩ := h
  exact ⟨l, r, hn, Lua.rendering_congr hl hr .refl⟩

/-- The operands of an operator are taken as values of like types. -/
theorem WellTyped.operands (h : WellTyped (.binary loc type op lhs rhs)) :
    Disciplined (operators (.binary loc type op lhs rhs)) (lower lhs) ∧
      Disciplined (operators (.binary loc type op lhs rhs)) (lower rhs) :=
  have hr : rhs ∈ (Expr.binary loc type op lhs rhs).children := .tail _ (.head _)
  ⟨disciplined_lower ⟨h.child (.head _), .inside (.head _) .self⟩,
    disciplined_lower ⟨h.child hr, .inside hr .self⟩⟩

/-- An operator that is taken as a value. -/
theorem gives_value_likened (h : WellTyped (.binary loc type op lhs rhs))
    (hop : op.isMutating = false) (hskip : op = .and ∨ op = .or → rhs.hoists = false) :
    Gives (binaryValue loc type op (lower lhs) (lower rhs)) s fun x _ =>
      Likened loc type op lhs rhs x.value := by
  obtain ⟨hl, hr⟩ := h.operands
  have hcircuit (hop : op = .and ∨ op = .or) :
      Gives (shortCircuit loc type op (lower lhs) (lower rhs)) s fun x _ =>
        Likened loc type op lhs rhs x.value := by
    refine (hl.value s trivial).bind fun x s₁ hx => ?_
    rw [source_lower, hskip hop]
    refine (hr.value s₁ trivial).bind fun y s₂ hy => gives_pure ⟨_, _, rfl, ?_, ?_⟩
    · exact source_lower lhs ▸ hx.2.like
    · exact source_lower rhs ▸ hy.2.like
  unfold binaryValue
  split
  · cases hop
  · cases hop
  · cases hop
  · exact hcircuit (.inl rfl)
  · exact hcircuit (.inr rfl)
  · refine (Disciplined.operandPair hl hr s trivial).bind fun r s₁ hr =>
      gives_pure ⟨_, _, rfl, ?_, ?_⟩
    · exact source_lower lhs ▸ hr.2.like_fst
    · exact source_lower rhs ▸ hr.2.like_snd

/-- An operator that is part of an assignment. -/
theorem gives_update_likened (h : WellTyped (.binary loc type (.compound op) lhs rhs)) :
    Gives (assignment loc type (.compound op) (lower lhs) (lower rhs)) s fun x _ =>
      ∃ stmts n, x.stmts = stmts ++ [n] ∧ Likened loc type (.compound op) lhs rhs n := by
  obtain ⟨hl, hr⟩ := h.operands
  refine (hl.target trivial _ s trivial).bind fun x s₁ hx =>
    (hr.value s₁ trivial).bind fun y s₂ hy => gives_pure ⟨_, _, rfl, _, _, rfl, ?_, ?_⟩
  · exact source_lower lhs ▸ hx.2.like
  · exact source_lower rhs ▸ hy.2.like

end Operands

/-- **Normalization does not change which operators are chosen.** Of a tree
with the types its builders derive, a value is a string or a float exactly
if the tree is, and all operators come from operators that are rendered the
same way. An operator that is built again has the rendering of its operands
in the program. -/
theorem operator_choice_survives {e : Expr} (he : WellTyped e) (s s' : TempSupply) :
    (∀ h, normalizeValue e s = .ok h s' → e.type.Alike h.value.type ∧
      h.value.Throughout (Comes e) ∧ ∀ stmt ∈ h.stmts, stmt.Throughout (Comes e)) ∧
    (∀ t assignee, (∀ p ∈ assignee, p.Throughout (Comes e)) →
      normalize e assignee s = .ok t s' → t.Throughout (Comes e)) ∧
    ∀ loc type op lhs rhs h, e = .binary loc type op lhs rhs → normalizeValue e s = .ok h s' →
      (op.isMutating = false → (op = .and ∨ op = .or → rhs.hoists = false) →
        ∃ l r, h.value = .binary loc type op l r ∧
          Lua.rendering op l.type r.type type = Lua.rendering op lhs.type rhs.type type) ∧
      ∀ inner, op = .compound inner → ∃ stmts l r, h.stmts = stmts ++ [.binary loc type op l r] ∧
        Lua.rendering inner l.type r.type type = Lua.rendering inner lhs.type rhs.type type := by
  have hlower : Disciplined (operators e) (lower e) := disciplined_lower ⟨he, .self⟩
  refine ⟨fun h hrun => ?_, fun t assignee ha hrun => ?_, ?_⟩
  · have hvalue := ((hlower.value s trivial).of_ok hrun).2
    exact ⟨source_lower e ▸ hvalue.like, hvalue.value, hvalue.stmts⟩
  · have hbody : Makes (operators e) (normalize e assignee) (operators e).stmt :=
      (hlower.body assignee ha).bind fun _ hs => makes_pure (Discipline.stmt_block hs)
    exact ((hbody s trivial).of_ok hrun).2
  · rintro loc type op lhs rhs h rfl hrun
    refine ⟨fun hop hskip => ?_, fun inner hop => ?_⟩
    · rw [normalizeValue, value_binary] at hrun
      obtain ⟨l, r, hvalue, hsame⟩ := ((gives_value_likened he hop hskip).of_ok hrun).rendering
      have hoperation : op.operation = op := by
        cases op with
        | compound => cases hop
        | _ => rfl
      exact ⟨l, r, hvalue, hoperation ▸ hsame⟩
    · subst hop
      obtain ⟨stmts, n, hstmts, hn⟩ := (gives_update_likened he).of_ok hrun
      obtain ⟨l, r, rfl, hsame⟩ := hn.rendering
      exact ⟨stmts, l, r, hstmts, hsame⟩

/-- In `f() + { g(); }` the string on the left side is moved into a
temporary, and the sides are still concatenated. -/
theorem operator_choice_survives_concat :
    let call (type : Ty) (name : String) : Expr := .call {} type (.ident {} .dynamic name) []
    let e : Expr := .binary {} .dynamic .add (call .string "f") (.block {} .int [call .int "g"])
    WellTyped e ∧ ∃ h s', normalizeValue e TempSupply.all = .ok h s' ∧ s'.count = 2 ∧
      e.type.Alike h.value.type ∧ ∃ l r, h.value = .binary {} .dynamic .add l r ∧
        Lua.rendering .add l.type r.type .dynamic = .operator .concat := by
  intro call e
  have hcall {type : Ty} {name : String} (h : type.isUntyped = false) :
      WellTyped (call type name) :=
    throughout_iff.2 ⟨⟨.inr h, trivial⟩, forall_mem_singleton.2 (throughout_iff.2
      ⟨⟨.inr rfl, trivial⟩, forall_mem_nil _⟩)⟩
  have hderives : DerivesType e := by simp [e, DerivesType, BinaryOp.isAssignment]
  have he : WellTyped e := throughout_iff.2 ⟨⟨.inr rfl, hderives⟩,
    forall_mem_cons.2 ⟨hcall rfl, forall_mem_singleton.2 (throughout_iff.2
      ⟨⟨.inr rfl, trivial⟩, forall_mem_singleton.2 (hcall rfl)⟩)⟩⟩
  have hsurvives := operator_choice_survives he TempSupply.all
  refine ⟨he, _, _, rfl, rfl, ((hsurvives _).1 _ rfl).1, ?_⟩
  exact ((hsurvives _).2.2 _ _ _ _ _ _ rfl rfl).1 rfl (by simp)

end Normalize

end LuaBackend
