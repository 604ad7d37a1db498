import LuaBackend.Proofs.Normalize.Induction
import LuaBackend.Proofs.Normalize.Runs
import LuaBackend.Proofs.Tree.Words

/-!
# Normalized trees under a discipline

A `Regimen` says which trees may stand as values, as places and as
statements, with one condition for each form of node, and a `TypeRule`
which types the values may have. Whatever the lowering of a tree makes
keeps to it (`Disciplined`). A `Discipline` is a regimen that looks at the
parts of a node only.

`Expr.hoists` predicts from the shape of a tree whether taking its value
needs statements. A disciplined lowering keeps to that prediction, and
fails for want of temporaries only.
-/

namespace LuaBackend

open List Expr

namespace Expr

def isBinary : Expr → Bool
  | binary .. => true
  | _ => false

def placeParts : Expr → List Expr
  | field _ _ _ receiver => receiver.toList
  | index _ _ base position => [base, position]
  | _ => []

end Expr

namespace Normalize

open Expr

/-! ## Rules -/

/-- What an operator keeps of the types of its operands. -/
structure OperatorRule (like : Ty → Ty → Prop) (made : Expr → Prop) (loc : Loc) (type : Ty)
    (op : BinaryOp) (lhs rhs : Ty) : Prop where
  made {l r : Expr} : like lhs l.type → like rhs r.type → made (.binary loc type op l r)
  assigned {t : Ty} : op.isAssignment = true → like lhs t → like type t
  decided : op = .and ∨ op = .or → like type .bool
  coalesced {t : Ty} : op = .nullCoalesce → like type (if type.isUntyped then t else type)

/-- What normalized trees keep of the types of the source. -/
structure TypeRule (source : Expr → Prop) where
  /-- A value of the second type may stand for one of the first. -/
  like : Ty → Ty → Prop
  /-- The node may be put together. -/
  made : Expr → Prop
  like_refl {type : Ty} : like type type
  like_trans {a b c : Ty} : like a b → like b c → like a c
  like_temp {type : Ty} : like type (if type.isUntyped then .dynamic else type)
  like_nothing {type : Ty} :
    (type.isUntyped || type.isKind .void) = true → like type (.nullable .dynamic)
  like_empty {loc : Loc} {type : Ty} : source (.block loc type []) → like type (.nullable .dynamic)
  like_wrapped {e c : Expr} {t : Ty} : source e → c ∈ e.wrapped → like c.type t → like e.type t
  like_unary {loc : Loc} {type t : Ty} {op : UnaryOp} {isPost : Bool} {operand : Expr} :
    source (.unary loc type op isPost operand) → like operand.type t → like type (op.resultType t)
  like_method {loc : Loc} {type result : Ty} {params : List Ty} {ref : MemberRef}
    {receiver : Option Expr} : source (.field loc type ref receiver) → ref.isForwarded = true →
      like type (.function params result [])
  binary {loc : Loc} {type : Ty} {op : BinaryOp} {lhs rhs : Expr} :
    source (.binary loc type op lhs rhs) → OperatorRule like made loc type op lhs.type rhs.type
  made_step {loc : Loc} {type : Ty} {op : UnaryOp} {isPost : Bool} {operand p : Expr} :
    source (.unary loc type op isPost operand) → op.isStep = true → like operand.type p.type →
      made (.binary loc p.type (.compound op.stepOp) p (.intLit loc 1))
  made_plain {loc : Loc} {type : Ty} {op : BinaryOp} {l r : Expr} :
    op = .assign ∨ op = .eq ∨ op = .or → made (.binary loc type op l r)
  made_other {e : Expr} : e.isBinary = false → made e

def TypeRule.any (source : Expr → Prop) : TypeRule source where
  like _ _ := True
  made _ := True
  like_refl := trivial
  like_trans _ _ := trivial
  like_temp := trivial
  like_nothing _ := trivial
  like_empty _ := trivial
  like_wrapped _ _ _ := trivial
  like_unary _ _ := trivial
  like_method _ _ := trivial
  binary _ := ⟨fun _ _ => trivial, fun _ _ => trivial, fun _ => trivial, fun _ => trivial⟩
  made_step _ _ _ := trivial
  made_plain _ := trivial
  made_other _ := trivial

/-- What goes into normalized trees. -/
structure Matter where
  /-- The supplies that temporaries may come from. -/
  supply : TempSupply → Prop
  /-- The words that may be used. -/
  word : Word → Prop
  /-- The trees that are lowered. -/
  source : Expr → Prop
  types : TypeRule source
  /-- The trees that may be assigned to. -/
  assignable : Expr → Prop
  supply_next {s : TempSupply} {type : Ty} :
    supply s → s.next < UInt32.size → supply (afterTemp s) ∧ word (.var (nextTemp s type))
  source_part {e c : Expr} : source e → c ∈ e.children → source c
  source_word {e : Expr} {w : Word} : source e → w ∈ e.words → word w
  assignable_binary {loc : Loc} {type : Ty} {op : BinaryOp} {lhs rhs : Expr} :
    source (.binary loc type op lhs rhs) → op.isAssignment = true → assignable lhs
  assignable_unary {loc : Loc} {type : Ty} {op : UnaryOp} {isPost : Bool} {operand : Expr} :
    source (.unary loc type op isPost operand) → op.isStep = true → assignable operand
  assignable_local {loc : Loc} {var : Var} : assignable (.local loc var)
  assignable_wrapped {e c : Expr} : assignable e → c ∈ e.wrapped → assignable c

/-- A rule for the nodes of normalized trees. -/
structure Discipline extends Matter where
  value : Expr → Prop
  place : Expr → Prop
  stmt : Expr → Prop
  source_default {loc : Loc} {type result : Ty} {params : List (Param Expr)} {body : Option Expr}
    {p : Param Expr} {d : Expr} :
    source (.function loc type params result body) → p ∈ params → d ∈ p.default → value d.retyped
  value_of_place {e : Expr} : place e → value e
  stmt_of_value {e : Expr} : value e → stmt e
  /-- What is assignable without being a place stands for any value. -/
  place_of_value {e v : Expr} : assignable e → e.bare.isPlace = false → value v → place v
  place_node {e : Expr} : e.isPlace = true → (∀ w ∈ e.words, word w) →
    (∀ c ∈ e.children, value c) → place e
  value_node {e : Expr} : e.isStatementOnly = false → types.made e → (∀ w ∈ e.words, word w) →
    (∀ c ∈ e.valuePositions, value c) → (∀ c ∈ e.stmtPositions, stmt c) →
    (∀ c ∈ e.wrapped, value c) → value e
  stmt_node {e : Expr} : e.isStatementOnly = true → e.isMutating = false →
    (∀ w ∈ e.words, word w) → (∀ c ∈ e.valuePositions, value c) →
    (∀ c ∈ e.stmtPositions, stmt c) → stmt e
  stmt_assign {loc : Loc} {type : Ty} {op : BinaryOp} {p v : Expr} : op.isAssignment = true →
    types.made (.binary loc type op p v) → place p → value v → stmt (.binary loc type op p v)

/-- A rule for each form of node that lowering puts together. -/
structure Regimen extends Matter where
  value : Expr → Prop
  /-- Values with no parentheses around them. -/
  whole : Expr → Prop
  /-- Places whose parts were moved in the given way. -/
  place : Spill → Expr → Prop
  stmt : Expr → Prop
  /-- Blocks that are bodies. -/
  scope : Expr → Prop
  value_of_whole {e} : whole e → value e
  whole_of_place {how e} : place how e → whole e
  place_of_place {how how' e} : how ≠ .none → place how e → place how' e
  place_of_whole {how e v} :
    assignable e → e.bare.isPlace = false → whole v → v.placeParts = [] → place how v
  place_assigned {loc type op lhs rhs v how how'} :
    assignable (.binary loc type op lhs rhs) → op.isAssignment = true → place how v → place how' v
  stmt_of_whole {e} : whole e → e.isPure = false → stmt e
  whole_omitted : whole .omitted
  whole_const {loc type c} : whole (.const loc type c)
  whole_typeRef {loc type path} : source (.typeRef loc type path) → whole (.typeRef loc type path)
  whole_ident {loc type name} : source (.ident loc type name) → whole (.ident loc type name)
  place_local {how loc var} : word (.var var) → place how (.local loc var)
  whole_field {loc type ref given receiver} : source (.field loc type ref given) →
    receiver.isSome = given.isSome → ref.isForwarded = false →
      (∀ r ∈ receiver, value r ∧ (ref.access = .closure → r.isPure = true)) →
      whole (.field loc type ref receiver)
  place_field {how loc type ref given receiver} : source (.field loc type ref given) →
    assignable (.field loc type ref given) → receiver.isSome = given.isSome →
      (∀ r ∈ receiver, value r ∧ (how ≠ .none → r.isPure = true ∨ r.isStable = true)) →
      place how (.field loc type ref receiver)
  whole_forwarder {loc type result ref given receiver params} :
    source (.field loc type ref given) → ref.isForwarded = true →
      result = (if type.unwrap.isKind .function then type.unwrap.result else .dynamic) →
      (∀ r ∈ receiver, value r) → (∀ t ∈ params, word (.var t)) →
      let call := call loc result (.field loc type ref receiver) (params.map (.local loc ·))
      whole (.mkFunction loc params result (some (.mkBlock loc
        [if result.isKind .void then call else .ret loc (some call)])))
  place_index {how loc type b p} : value b → value p →
    (how ≠ .none → ∀ q ∈ [b, p], q.isPure = true ∨ q.isStable = true) →
    place how (.index loc type b p)
  value_paren {loc v} : value v → value (.mkParen loc v)
  value_annot {loc name v} : value v → value (.mkAnnot loc name v)
  whole_cast {loc type checked given v} :
    source (.cast loc type checked given) → value v → whole (.cast loc type checked v)
  whole_enumParam {loc type ctor slot v} : value v → whole (.enumParam loc type v ctor slot)
  whole_enumIndex {loc v} : value v → whole (.enumIndex loc v)
  whole_object {loc type fields} :
    (∀ f ∈ fields, value f.value) → whole (.object loc type fields)
  whole_array {loc type vs} : (∀ v ∈ vs, value v) → whole (.array loc type vs)
  whole_new {loc type ctorType cls vs} :
    word (.type cls) → (∀ v ∈ vs, value v) → whole (.new loc type cls ctorType vs)
  whole_callMember {loc memberLoc type memberType ref given receiver vs} :
    source (.field memberLoc memberType ref given) → (∀ r ∈ receiver, value r) →
      (∀ v ∈ vs, value v) → whole (.call loc type (.field memberLoc memberType ref receiver) vs)
  whole_call {loc type callee vs} :
    value callee → (∀ v ∈ vs, value v) → whole (.call loc type callee vs)
  whole_function {loc type result params given body} :
    source (.function loc type params result given) → (∀ b ∈ body, scope b) → whole (.function loc type
        (params.map fun p => { p with default := p.default.map retyped }) result body)
  whole_binary {loc type op l r} : op.isMutating = false →
    types.made (.binary loc type op l r) → value l → value r → whole (.binary loc type op l r)
  whole_unary {loc op isPost v} : op.isStep = false → value v → whole (.mkUnary loc op isPost v)
  /-- What stays in its place while the right side is evaluated is
  assigned to plainly, and cannot tell when. -/
  stmt_assign {how loc type op p v} :
    op.isAssignment = true → types.made (.binary loc type op p v) → place how p → value v →
      (how = .none → op = .assign ∧ v.isPure = true) → stmt (.binary loc type op p v)
  stmt_varDecl {loc var init} :
    word (.var var) → (∀ i ∈ init, value i) → stmt (.varDecl loc var init)
  stmt_ret {loc v} : (∀ e ∈ v, value e) → stmt (.ret loc v)
  stmt_throw {loc v} : value v → stmt (.throw loc v)
  stmt_brk {loc} : stmt (.brk loc)
  stmt_cont {loc} : stmt (.cont loc)
  scope_block {loc stmts} : (∀ st ∈ stmts, stmt st) → scope (.statements loc stmts)
  stmt_block {loc stmts} :
    (∀ st ∈ stmts, stmt st) → stmts ≠ [] → stmt (.statements loc stmts)
  stmt_ite {loc c onTrue onFalse} : value c → scope onTrue →
    (∀ f ∈ onFalse, scope f) → stmt (.ite loc .void c (some onTrue) onFalse)
  stmt_forIn {loc var v body} :
    word (.var var) → value v → scope body → stmt (.forIn loc var v (some body))
  stmt_loop {loc test v body} : value v → scope body → stmt (.loop loc test v (some body))
  stmt_switch {loc v cs default} : value v → v.isPure = true →
    (∀ c ∈ cs, (∀ v ∈ c.values, value v) ∧ ∃ b, c.body = some b ∧ scope b) →
    (∀ d ∈ default, scope d) → stmt (.switch loc .void v cs default)
  stmt_tryCatch {loc body hs} : scope body →
    (∀ h ∈ hs, word (.var h.var) ∧ ∃ b, h.body = some b ∧ scope b) →
    stmt (.tryCatch loc .void (some body) hs)

/-! ## What runs make -/

section Makes

variable {α β : Type} {R : Regimen} {x : Norm α} {P Q : α → Prop}

/-- The computation makes something that has `Q`, unless no temporaries are
left. -/
def Makes (R : Regimen) (x : Norm α) (Q : α → Prop) : Prop :=
  ∀ s, R.supply s → Gives x s fun a s' => R.supply s' ∧ Q a

theorem makes_pure {a : α} (h : Q a) : Makes R (pure a) Q := fun _ hs => gives_pure ⟨hs, h⟩

/-- Computations made one after the other. -/
theorem Makes.bind {f : α → Norm β} {S : β → Prop} (hx : Makes R x P)
    (hf : ∀ a, P a → Makes R (f a) S) : Makes R (x >>= f) S :=
  fun s hs => (hx s hs).bind fun a s' h => hf a h.2 s' h.1

theorem Makes.mono (hx : Makes R x P) (h : ∀ a, P a → Q a) : Makes R x Q :=
  fun s hs => (hx s hs).mono fun a _ ha => ⟨ha.1, h a ha.2⟩

end Makes

theorem forall_mem_some {α : Type} {P : α → Prop} {a : α} (h : P a) : ∀ x ∈ some a, P x :=
  fun _ hx => Option.some.inj hx ▸ h

theorem forall_mem_none {α : Type} {P : α → Prop} : ∀ x ∈ (none : Option α), P x := nofun

/-- The value was taken without statements, and is pure and stable where
promised. -/
structure Quiet (e : Expr) (h : Hoisted) : Prop where
  stmts : h.stmts = []
  pure : e.isPure = true → h.value.isPure = true
  stable : e.leavesStable = true → h.value.isStable = true

variable {R : Regimen}

namespace Regimen

abbrev Stmts (R : Regimen) (es : List Expr) : Prop := ∀ e ∈ es, R.stmt e

/-- A value that keeps to the regimen, with the statements before it. -/
structure Part (R : Regimen) (h : Hoisted) : Prop where
  stmts : R.Stmts h.stmts
  value : R.value h.value

/-- A `Part` of the type of its node, without statements if none are
predicted. -/
structure Value (R : Regimen) (e : Expr) (h : Hoisted) : Prop extends R.Part h where
  like : R.types.like e.type h.value.type
  quiet : e.hoists = false → Quiet e h

/-- A `Value` that may stand as a statement. -/
structure Whole (R : Regimen) (e : Expr) (h : Hoisted) : Prop extends R.Value e h where
  whole : R.whole h.value

/-- A `Whole` that may be assigned to if its node may. -/
structure Node (R : Regimen) (e : Expr) (h : Hoisted) : Prop extends R.Whole e h where
  target : R.assignable e → ∀ how, R.place how h.value

/-- A place that keeps to the regimen, with the statements before it. -/
structure Place (R : Regimen) (how : Spill) (e : Expr) (h : Hoisted) : Prop where
  stmts : R.Stmts h.stmts
  place : R.place how h.value
  like : R.types.like e.type h.value.type

/-- The value of a node that is no place. -/
theorem node {e : Expr} {h : Hoisted} (hplace : e.bare.isPlace = false) (hs : R.Stmts h.stmts)
    (hw : R.whole h.value) (hparts : h.value.placeParts = [])
    (hlike : R.types.like e.type h.value.type) (hq : e.hoists = false → Quiet e h) : R.Node e h :=
  ⟨⟨⟨⟨hs, R.value_of_whole hw⟩, hlike, hq⟩, hw⟩, fun ha _ => R.place_of_whole ha hplace hw hparts⟩

end Regimen

/-- Whatever the lowering makes keeps to the regimen. -/
structure Disciplined (R : Regimen) (l : Lowering) : Prop where
  value : Makes R l.value (R.Value l.source)
  target : R.assignable l.source → ∀ how, Makes R (l.target how) (R.Place how l.source)
  stmt : ∀ assignee, (∀ p ∈ assignee, R.place .unstable p) → Makes R (l.stmt assignee) R.Stmts
  body : ∀ assignee, (∀ p ∈ assignee, R.place .unstable p) → Makes R (l.body assignee) R.Stmts

/-- A node that is predicted to need statements promises nothing. -/
theorem quiet_of_hoists {e : Expr} {h : Hoisted} (he : e.hoists = true) :
    e.hoists = false → Quiet e h :=
  fun hn => absurd (hn.symm.trans he) Bool.false_ne_true

/-- A list needs statements if one of its trees does. -/
theorem hoistsList_eq_false {es : List Expr} :
    hoistsList es = false ↔ ∀ e ∈ es, e.hoists = false := by
  induction es with
  | nil => simp [hoistsList]
  | cons e rest ih => simp [hoistsList, ih]

theorem hoistsList_source {ls : List Lowering}
    (h : hoistsList (ls.map Lowering.source) = false) : ∀ l ∈ ls, l.source.hoists = false :=
  fun _ hl => hoistsList_eq_false.1 h _ (mem_map_of_mem hl)

theorem hoistsFields_eq_false {fields : List (FieldInit Expr)} :
    hoistsFields fields = false ↔ ∀ f ∈ fields, f.value.hoists = false := by
  induction fields with
  | nil => simp [hoistsFields]
  | cons f rest ih => simp [hoistsFields, ih]

theorem hoists_call {loc : Loc} {type : Ty} {callee : Expr} {args : List Expr}
    (h : ∀ memberLoc memberType ref receiver, callee ≠ .field memberLoc memberType ref receiver) :
    (call loc type callee args).hoists = (callee.hoists || hoistsList args) := by
  cases callee with
  | field => exact absurd rfl (h _ _ _ _)
  | _ => rfl

namespace Disciplined

variable {loc : Loc} {type : Ty} {op : BinaryOp} {assignee : Option Expr} {lhs rhs : Lowering}
variable {e : Expr}
variable {value : Expr} {var : Var} {needed : Bool} {r : Hoisted}
variable {stmt : Option Expr → Norm (List Expr)}

theorem whole_local (h : R.word (.var var)) : R.whole (.local loc var) :=
  R.whole_of_place (R.place_local h : R.place .none _)

theorem value_local (h : R.word (.var var)) : R.value (.local loc var) :=
  R.value_of_whole (whole_local h)

theorem value_const {value : Const} : R.value (.const loc type value) :=
  R.value_of_whole R.whole_const

/-- A fresh temporary is a word of the regimen. -/
theorem temp (type : Ty) :
    Makes R (freshTemp type) fun t => R.word (.var t) ∧ R.types.like type t.type := by
  refine fun s hs => gives_freshTemp fun hlt => ?_
  obtain ⟨hs', ht⟩ := R.supply_next hs hlt
  exact ⟨hs', ht, R.types.like_temp⟩

theorem freshTemps : ∀ types : List Ty,
    Makes R (freshTemps types) fun vars => ∀ t ∈ vars, R.word (.var t)
  | [] => makes_pure nofun
  | _ :: rest => (temp _).bind fun _ ht =>
    (freshTemps rest).bind fun _ hts => makes_pure (forall_mem_cons.2 ⟨ht.1, hts⟩)

/-- A value, moved into a temporary if it had to be. -/
structure Spilled (R : Regimen) (needed : Bool) (v : Expr) (r : Hoisted) : Prop
    extends R.Part r where
  like : R.types.like v.type r.value.type
  stays : needed = false → r = ⟨[], v⟩
  moved : needed = true → r.value.isPure = true

theorem spill (h : R.value value) : Makes R (spill needed value) (Spilled R needed value) := by
  refine fun s hs => gives_spill (fun hn hlt => ?_) fun hn =>
    ⟨hs, ⟨nofun, h⟩, R.types.like_refl, fun _ => rfl,
      fun hn' => absurd (hn.symm.trans hn') Bool.false_ne_true⟩
  obtain ⟨hs', ht⟩ := R.supply_next hs hlt
  refine ⟨hs', ⟨?_, value_local ht⟩, R.types.like_temp,
    fun hn' => absurd (hn'.symm.trans hn) Bool.false_ne_true, fun _ => rfl⟩
  exact forall_mem_singleton.2 (R.stmt_varDecl ht (forall_mem_some h))

theorem Spilled.pure (h : Spilled R needed value r) (hp : needed = false → value.isPure = true) :
    r.value.isPure = true := by
  cases needed with
  | true => exact h.moved rfl
  | false =>
    rw [h.stays rfl]
    exact hp rfl

/-- A part of a place cannot be observed after it was moved away. -/
theorem Spilled.part {how : Spill} (h : Spilled R (how.needs value) value r) (hhow : how ≠ .none) :
    r.value.isPure = true ∨ r.value.isStable = true := by
  cases how with
  | none => exact absurd rfl hhow
  | impure => exact .inl (h.pure fun hn => Bool.not_eq_false' _ ▸ hn)
  | unstable =>
    cases hs : value.isStable with
    | false => exact .inl (h.moved (by rw [Spill.needs, hs]; rfl))
    | true =>
      rw [h.stays (by rw [Spill.needs, hs]; rfl)]
      exact .inr hs

/-- Values stay values when the unstable ones are moved away. -/
theorem spillUnstable : ∀ {values : List Expr}, (∀ v ∈ values, R.value v) →
    Makes R (spillUnstable values) fun r => R.Stmts r.1 ∧ ∀ v ∈ r.2, R.value v
  | [], _ => makes_pure ⟨nofun, nofun⟩
  | value :: rest, h => by
    obtain ⟨hv, hrest⟩ := forall_mem_cons.1 h
    refine (spill hv).bind fun x hx => (spillUnstable hrest).bind fun r hr => makes_pure ?_
    exact ⟨forall_mem_append.2 ⟨hx.stmts, hr.1⟩, forall_mem_cons.2 ⟨hx.value, hr.2⟩⟩

/-- Operands none of which is said to need statements have none. -/
theorem operandsAfter {calm : Prop} : ∀ {items : List (Norm Hoisted)} {done : List Expr},
    (∀ x ∈ items, Makes R x fun h => R.Part h ∧ (calm → h.stmts = [])) →
    (∀ v ∈ done, R.value v) → Makes R (operandsAfter done items) fun r =>
      (R.Stmts r.1 ∧ ∀ v ∈ r.2, R.value v) ∧ (calm → r.1 = [])
  | [], _, _, hd => makes_pure ⟨⟨nofun, hd⟩, fun _ => rfl⟩
  | item :: rest, done, hi, hd => by
    rw [forall_mem_cons] at hi
    refine hi.1.bind fun x hx => ?_
    have hsnoc {vs : List Expr} (h : ∀ v ∈ vs, R.value v) : ∀ v ∈ vs ++ [x.value], R.value v :=
      forall_mem_append.2 ⟨h, forall_mem_singleton.2 hx.1.value⟩
    split
    · exact operandsAfter hi.2 (hsnoc hd)
    · rename_i hne
      refine (spillUnstable hd).bind fun r hr => ?_
      refine (@operandsAfter calm _ _ hi.2 (hsnoc hr.2)).bind fun r' hr' => makes_pure ?_
      refine ⟨⟨?_, hr'.1.2⟩, fun hcalm => absurd (hx.2 hcalm) (by simpa using hne)⟩
      exact forall_mem_append.2 ⟨forall_mem_append.2 ⟨hr.1, hx.1.stmts⟩, hr'.1.1⟩

/-- The operands of a node, in order. -/
theorem operands {ls : List Lowering} (h : ∀ l ∈ ls, Disciplined R l) :
    Makes R (operands (ls.map Lowering.value)) fun r =>
      (R.Stmts r.1 ∧ ∀ v ∈ r.2, R.value v) ∧ ((∀ l ∈ ls, l.source.hoists = false) → r.1 = []) := by
  refine operandsAfter (fun x hx => ?_) nofun
  obtain ⟨l, hl, rfl⟩ := mem_map.1 hx
  exact (h l hl).value.mono fun x hx => ⟨hx.toPart, fun hn => (hx.quiet (hn l hl)).stmts⟩

/-- The values of two operands. -/
structure Pair (R : Regimen) (a b : Expr) (r : List Expr × Expr × Expr) : Prop where
  stmts : R.Stmts r.1
  fst : R.value r.2.1
  snd : R.value r.2.2
  like_fst : R.types.like a.type r.2.1.type
  like_snd : R.types.like b.type r.2.2.type
  quiet : a.hoists = false → b.hoists = false → Quiet a ⟨[], r.2.1⟩ ∧ Quiet b ⟨[], r.2.2⟩ ∧ r.1 = []

theorem operandPair (hl : Disciplined R lhs) (hr : Disciplined R rhs) :
    Makes R (operandPair lhs.value rhs.value) (Pair R lhs.source rhs.source) := by
  refine hl.value.bind fun x hx => hr.value.bind fun y hy => ?_
  split
  · refine makes_pure ⟨hx.stmts, hx.value, hy.value, hx.like, hy.like, fun hnl hnr => ?_⟩
    have hqx := hx.quiet hnl
    have hqy := hy.quiet hnr
    exact ⟨⟨rfl, hqx.pure, hqx.stable⟩, ⟨rfl, hqy.pure, hqy.stable⟩, hqx.stmts⟩
  · rename_i hne
    refine (spill hx.value).bind fun z hz => makes_pure ⟨?_, hz.value, hy.value,
      R.types.like_trans hx.like hz.like, hy.like, fun _ hn => ?_⟩
    · exact forall_mem_append.2 ⟨forall_mem_append.2 ⟨hx.stmts, hz.stmts⟩, hy.stmts⟩
    · exact absurd (hy.quiet hn).stmts (by simpa using hne)

theorem stmts_snoc {stmts : List Expr} (h : R.Stmts stmts) (he : R.stmt e) :
    R.Stmts (stmts ++ [e]) := forall_mem_append.2 ⟨h, forall_mem_singleton.2 he⟩

theorem stmt_mkAssign {place : Expr} (hp : R.place .unstable place) (hv : R.value value) :
    R.stmt (.mkAssign loc place value) :=
  R.stmt_assign rfl (R.types.made_plain (.inl rfl)) hp hv nofun

/-- A value that is stored or dropped leaves statements. -/
theorem storeOrDrop {value : Norm Hoisted} (hv : Makes R value (R.Whole e))
    (ha : ∀ p ∈ assignee, R.place .unstable p) :
    Makes R (storeOrDrop loc value assignee) R.Stmts := by
  refine hv.bind fun x hx => ?_
  cases assignee with
  | some place => exact makes_pure (stmts_snoc hx.stmts (stmt_mkAssign (ha place rfl) hx.value))
  | none =>
    refine makes_pure ?_
    split
    · exact hx.stmts
    · rename_i himpure
      exact stmts_snoc hx.stmts (R.stmt_of_whole hx.whole (Bool.not_eq_true _ ▸ himpure))

/-- The value of a node that is lowered to statements. -/
theorem valueOfStmts (hplace : e.bare.isPlace = false) (he : e.hoists = true)
    (h : ∀ assignee, (∀ p ∈ assignee, R.place .unstable p) → Makes R (stmt assignee) R.Stmts) :
    Makes R (valueOfStmts e stmt) (R.Node e) := by
  unfold Normalize.valueOfStmts
  split
  · rename_i hnothing
    exact (h none nofun).bind fun _ hs => makes_pure
      (R.node hplace hs R.whole_const rfl (R.types.like_nothing hnothing) (quiet_of_hoists he))
  -- The statements store what they yield into a temporary.
  · refine (temp _).bind fun t ht => ?_
    refine (h _ (forall_mem_some (R.place_local ht.1))).bind fun stmts hs => makes_pure ?_
    have hdecl : R.stmt (.varDecl e.loc t none) := R.stmt_varDecl ht.1 nofun
    exact R.node hplace (forall_mem_cons.2 ⟨hdecl, hs⟩) (whole_local ht.1) rfl ht.2
      (quiet_of_hoists he)

/-- A node that is lowered to a value. -/
theorem ofValue {value : Norm Hoisted} (hv : Makes R value (R.Node e)) :
    Disciplined R (.ofValue e value) where
  value := hv.mono fun _ hx => hx.toValue
  target ha how := hv.mono fun _ hx => ⟨hx.stmts, hx.target ha how, hx.like⟩
  stmt _ := storeOrDrop (hv.mono fun _ hx => hx.toWhole)
  body _ := storeOrDrop (hv.mono fun _ hx => hx.toWhole)

/-- A node that is lowered to statements. -/
theorem ofStmt (hplace : e.bare.isPlace = false) (he : e.hoists = true)
    (hvoid : e.isBlockLike = true ∨ e.type = .void)
    (h : ∀ assignee, (∀ p ∈ assignee, R.place .unstable p) → Makes R (stmt assignee) R.Stmts) :
    Disciplined R (.ofStmt e stmt) := by
  have hvalue : Makes R (if e.isBlockLike then Normalize.valueOfStmts e stmt
      else do return ⟨← stmt none, .nullLit e.loc⟩) (R.Node e) := by
    split
    · exact valueOfStmts hplace he h
    · rename_i hblock
      have htype : e.type = .void := hvoid.resolve_left hblock
      have hlike : R.types.like e.type (.nullable .dynamic) :=
        R.types.like_nothing (by rw [htype]; rfl)
      exact (h none nofun).bind fun _ hs => makes_pure
        (R.node hplace hs R.whole_const rfl hlike (quiet_of_hoists he))
  exact ⟨(ofValue hvalue).value, (ofValue hvalue).target, h, h⟩

/-- A node that is lowered to itself. -/
theorem leaf (hplace : e.bare.isPlace = false) (h : R.whole e) (hparts : e.placeParts = [])
    (hs : e.leavesStable = true → e.isStable = true) : Disciplined R (.leaf e) :=
  ofValue (makes_pure (R.node hplace nofun h hparts R.types.like_refl fun _ => ⟨rfl, id, hs⟩))

theorem const {value : Const} : Disciplined R (.leaf (.const loc type value)) :=
  leaf rfl R.whole_const rfl id

theorem localVar (h : R.word (.var var)) : Disciplined R (.leaf (.local loc var)) :=
  ofValue (makes_pure ⟨⟨⟨⟨nofun, value_local h⟩, R.types.like_refl, fun _ => ⟨rfl, id, id⟩⟩,
    whole_local h⟩, fun _ _ => R.place_local h⟩)

/-- The lowering of a part in a scope of its own. -/
theorem scope {part : Option Lowering} (h : ∀ l ∈ part, Disciplined R l)
    (ha : ∀ p ∈ assignee, R.place .unstable p) :
    Makes R (Lowering.scope part assignee) R.scope := by
  cases part with
  | none => exact makes_pure (R.scope_block nofun)
  | some l => exact ((h l rfl).body assignee ha).bind fun _ hs => makes_pure (R.scope_block hs)

end Disciplined

/-! ## Disciplines -/

namespace Discipline

variable {D : Discipline} {loc : Loc} {type : Ty} {v : Expr}
variable {given receiver : Option Expr} {ref : MemberRef} {result : Ty}

theorem place_field (h : D.source (.field loc type ref given)) (hr : ∀ r ∈ receiver, D.value r) :
    D.place (.field loc type ref receiver) :=
  D.place_node rfl (fun _ hw => D.source_word h hw) fun c hc => hr c (Option.mem_toList.1 hc)

theorem value_plain {e : Expr} (he : e.isStatementOnly = false) (hb : e.isBinary = false)
    (hwords : ∀ w ∈ e.words, D.word w) (hv : ∀ c ∈ e.valuePositions, D.value c)
    (hs : ∀ c ∈ e.stmtPositions, D.stmt c) (hw : ∀ c ∈ e.wrapped, D.value c) : D.value e :=
  D.value_node he (D.types.made_other hb) hwords hv hs hw

theorem value_call {callee : Expr} {args : List Expr} (hc : D.value callee)
    (ha : ∀ a ∈ args, D.value a) : D.value (.call loc type callee args) :=
  value_plain rfl rfl nofun (forall_mem_cons.2 ⟨hc, ha⟩) nofun nofun

theorem stmt_block {stmts : List Expr} (h : ∀ st ∈ stmts, D.stmt st) :
    D.stmt (.block loc type stmts) := D.stmt_node rfl rfl nofun nofun h

/-- The function that forwards to a method. -/
theorem value_forwarder {params : List Var} (h : D.source (.field loc type ref given))
    (hr : ∀ r ∈ receiver, D.value r) (hparams : ∀ t ∈ params, D.word (.var t)) :
    let call := call loc result (.field loc type ref receiver) (params.map (.local loc ·))
    D.value (.mkFunction loc params result (some (.mkBlock loc
      [if result.isKind .void then call else .ret loc (some call)]))) := by
  intro call
  have hcall : D.value call :=
    value_call (D.value_of_place (place_field h hr)) (forall_mem_map.2 fun t ht =>
      D.value_of_place (D.place_node rfl (forall_mem_singleton.2 (hparams t ht))
        (forall_mem_nil _)))
  unfold mkFunction mkBlock
  refine value_plain rfl rfl (forall_mem_words.2 ⟨?_, forall_mem_nil _, forall_mem_none⟩)
    (fun d hd => ?_) (forall_mem_singleton.2 (stmt_block (forall_mem_singleton.2 ?_)))
    (forall_mem_nil _)
  · rw [vars, map_map]
    exact forall_mem_map.2 hparams
  · obtain ⟨p, hp, hd⟩ := mem_filterMap.1 hd
    obtain ⟨t, -, rfl⟩ := mem_map.1 hp
    cases hd
  · split
    · exact D.stmt_of_value hcall
    · exact D.stmt_node rfl rfl (forall_mem_nil _) (forall_mem_singleton.2 hcall) (forall_mem_nil _)

theorem value_function {params : List (Param Expr)} {body : Option Expr}
    (hsource : D.source (.function loc type params result given)) (h : ∀ b ∈ body, D.stmt b) :
    D.value (.function loc type
      (params.map fun p => { p with default := p.default.map retyped }) result body) := by
  refine value_plain rfl rfl (forall_mem_words.2 ⟨fun v hv => ?_, nofun, nofun⟩)
    (fun c hc => ?_) (fun b hb => h b (Option.mem_toList.1 hb)) nofun
  · rw [vars, map_map] at hv
    exact D.source_word hsource (mem_append_left _ (mem_map_of_mem hv))
  · obtain ⟨_, hretyped, hmapped⟩ := mem_filterMap.1 hc
    obtain ⟨p, hp, rfl⟩ := mem_map.1 hretyped
    obtain ⟨d, hd, rfl⟩ := Option.map_eq_some_iff.1 hmapped
    exact D.source_default hsource hp hd

theorem stmt_switch {cs : List (Case Expr)} {default : Option Expr} (hv : D.value v)
    (hc : ∀ c ∈ cs, (∀ v ∈ c.values, D.value v) ∧ ∃ b, c.body = some b ∧ D.stmt b)
    (hd : ∀ d ∈ default, D.stmt d) : D.stmt (.switch loc .void v cs default) := by
  refine D.stmt_node rfl rfl nofun (forall_mem_cons.2 ⟨hv, fun u hu => ?_⟩)
    (forall_mem_append.2 ⟨fun b hb => ?_, fun d hmem => hd d (Option.mem_toList.1 hmem)⟩)
  · obtain ⟨c, hmem, hu⟩ := mem_flatMap.1 hu
    exact (hc c hmem).1 u hu
  · obtain ⟨c, hmem, hbody⟩ := mem_filterMap.1 hb
    obtain ⟨b', hb', hstmt⟩ := (hc c hmem).2
    exact Option.some.inj (hb'.symm.trans hbody) ▸ hstmt

theorem stmt_tryCatch {body : Expr} {hs : List (Handler Expr)} (hb : D.stmt body)
    (hh : ∀ h ∈ hs, D.word (.var h.var) ∧ ∃ b, h.body = some b ∧ D.stmt b) :
    D.stmt (.tryCatch loc .void (some body) hs) := by
  refine D.stmt_node rfl rfl (forall_mem_words.2 ⟨?_, nofun, nofun⟩) nofun
    (forall_mem_cons.2 ⟨hb, fun b hmem => ?_⟩)
  · exact forall_mem_map.2 fun h hmem => (hh h hmem).1
  · obtain ⟨h, hmem, hbody⟩ := mem_filterMap.1 hmem
    obtain ⟨b', hb', hstmt⟩ := (hh h hmem).2
    exact Option.some.inj (hb'.symm.trans hbody) ▸ hstmt

theorem not_statementOnly {e : Expr} (he : e.isBlockLike = false) (hm : e.isMutating = false)
    (ht : e.isTransfer = false) (hd : e.isDeclOrLoop = false) : e.isStatementOnly = false := by
  rw [isStatementOnly, he, hm, ht, hd]
  rfl

def regimen (D : Discipline) : Regimen where
  toMatter := D.toMatter
  value := D.value
  whole := D.value
  place _ := D.place
  stmt := D.stmt
  scope := D.stmt
  value_of_whole := id
  whole_of_place := D.value_of_place
  place_of_place _ := id
  place_of_whole ha hplace hv _ := D.place_of_value ha hplace hv
  place_assigned _ _ := id
  stmt_of_whole hv _ := D.stmt_of_value hv
  whole_omitted := value_plain rfl rfl nofun nofun nofun nofun
  whole_const := value_plain rfl rfl nofun nofun nofun nofun
  whole_typeRef h := value_plain rfl rfl (fun _ => D.source_word h) nofun nofun nofun
  whole_ident h := value_plain rfl rfl (fun _ => D.source_word h) nofun nofun nofun
  place_local h := D.place_node rfl (forall_mem_singleton.2 h) nofun
  whole_field h _ _ hr := D.value_of_place (place_field h fun r hmem => (hr r hmem).1)
  place_field h _ _ hr := place_field h fun r hmem => (hr r hmem).1
  whole_forwarder h _ _ := value_forwarder h
  place_index hb hp _ :=
    D.place_node rfl nofun (forall_mem_cons.2 ⟨hb, forall_mem_singleton.2 hp⟩)
  value_paren hv := value_plain rfl rfl nofun nofun nofun (forall_mem_singleton.2 hv)
  value_annot hv := value_plain rfl rfl nofun nofun nofun (forall_mem_singleton.2 hv)
  whole_cast h hv := value_plain rfl rfl (fun _ hw => D.source_word h hw)
    (forall_mem_singleton.2 hv) nofun nofun
  whole_enumParam hv := value_plain rfl rfl nofun (forall_mem_singleton.2 hv) nofun nofun
  whole_enumIndex hv := value_plain rfl rfl nofun (forall_mem_singleton.2 hv) nofun nofun
  whole_object h := value_plain rfl rfl nofun (forall_mem_map.2 h) nofun nofun
  whole_array h := value_plain rfl rfl nofun h nofun nofun
  whole_new hcls h := value_plain rfl rfl (forall_mem_singleton.2 hcls) h nofun nofun
  whole_callMember h hr := value_call (D.value_of_place (place_field h hr))
  whole_call := value_call
  whole_function := value_function
  whole_binary hop hmade hl hr := D.value_node (not_statementOnly rfl hop rfl rfl) hmade nofun
    (forall_mem_cons.2 ⟨hl, forall_mem_singleton.2 hr⟩) nofun nofun
  whole_unary hop hv := value_plain (not_statementOnly rfl hop rfl rfl) rfl nofun
    (forall_mem_singleton.2 hv) nofun nofun
  stmt_assign hop hmade hp hv _ := D.stmt_assign hop hmade hp hv
  stmt_varDecl h hinit := D.stmt_node rfl rfl (forall_mem_singleton.2 h)
    (fun i hi => hinit i (Option.mem_toList.1 hi)) nofun
  stmt_ret h := D.stmt_node rfl rfl nofun (fun v hv => h v (Option.mem_toList.1 hv)) nofun
  stmt_throw h := D.stmt_node rfl rfl nofun (forall_mem_singleton.2 h) nofun
  stmt_brk := D.stmt_node rfl rfl nofun nofun nofun
  stmt_cont := D.stmt_node rfl rfl nofun nofun nofun
  scope_block := stmt_block
  stmt_block h _ := stmt_block h
  stmt_ite hc ht hf := D.stmt_node rfl rfl nofun (forall_mem_singleton.2 hc)
    (forall_mem_cons.2 ⟨ht, fun f hmem => hf f (Option.mem_toList.1 hmem)⟩)
  stmt_forIn h hv hb := D.stmt_node rfl rfl (forall_mem_singleton.2 h)
    (forall_mem_singleton.2 hv) (forall_mem_singleton.2 hb)
  stmt_loop hv hb := D.stmt_node rfl rfl nofun (forall_mem_singleton.2 hv)
    (forall_mem_singleton.2 hb)
  stmt_switch hv _ hc := stmt_switch hv hc
  stmt_tryCatch := stmt_tryCatch

end Discipline

instance : Coe Discipline Regimen := ⟨Discipline.regimen⟩

end Normalize

end LuaBackend
