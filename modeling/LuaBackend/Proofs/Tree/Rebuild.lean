import LuaBackend.Proofs.Tree.Children
import LuaBackend.Tree.Rebuild
import Mathlib.Data.List.Forall2

/-!
# Rebuilding a tree

`mapChildren` changes the nodes directly below a node and nothing of the
node itself. Whatever the effects are, a tree rebuilt from below is its
root with rebuilt children, passed through the function
(`yields_bottomUp`); without effects it is `rebuild`. A function that
breaks no rule its argument keeps (`Milder`) breaks none in the whole
tree. A relation that every kind of node passes from its parts to itself
(`Congruent`) relates a tree with the rebuilt one if the function relates
its results to its arguments.
-/

namespace LuaBackend.Expr

open List

variable {g : Expr → Expr} {e : Expr}
variable {part : Option Expr} {α : Type}

def rebuild (g : Expr → Expr) (e : Expr) : Expr := Id.run (e.bottomUp fun e => pure (g e))

/-! ## One level -/

def mapChildren (g : Expr → Expr) : Expr → Expr
  | omitted => omitted
  | e@(const ..) | e@(.local ..) | e@(typeRef ..) | e@(brk ..) | e@(cont ..) | e@(ident ..) => e
  | field loc type ref receiver => field loc type ref (receiver.map g)
  | index loc type base position => index loc type (g base) (g position)
  | paren loc type inner => paren loc type (g inner)
  | object loc type fields => object loc type (fields.map fun f => ⟨f.name, g f.value⟩)
  | array loc type elements => array loc type (elements.map g)
  | call loc type callee args => call loc type (g callee) (args.map g)
  | new loc type cls ctorType args => new loc type cls ctorType (args.map g)
  | binary loc type op lhs rhs => binary loc type op (g lhs) (g rhs)
  | unary loc type op isPost operand => unary loc type op isPost (g operand)
  | function loc type params result body =>
    function loc type (params.map fun p => ⟨p.var, p.optional, p.default.map g⟩) result (body.map g)
  | varDecl loc var init => varDecl loc var (init.map g)
  | block loc type exprs => block loc type (exprs.map g)
  | forIn loc var iterator body => forIn loc var (g iterator) (body.map g)
  | ite loc type cond onTrue onFalse => ite loc type (g cond) (onTrue.map g) (onFalse.map g)
  | loop loc test cond body => loop loc test (g cond) (body.map g)
  | switch loc type subject cases default =>
    switch loc type (g subject) (cases.map fun c => ⟨c.values.map g, c.body.map g⟩) (default.map g)
  | ret loc value => ret loc (value.map g)
  | throw loc value => throw loc (g value)
  | cast loc type checked inner => cast loc type checked (g inner)
  | annot loc type name inner => annot loc type name (g inner)
  | tryCatch loc type body handlers =>
    tryCatch loc type (body.map g) (handlers.map fun k => ⟨k.var, k.body.map g⟩)
  | enumParam loc type value ctor slot => enumParam loc type (g value) ctor slot
  | enumIndex loc value => enumIndex loc (g value)

@[simp] theorem type_mapChildren (e : Expr) : (e.mapChildren g).type = e.type := by
  cases e <;> rfl

/-- The children of the new node are the new children. -/
theorem children_mapChildren (e : Expr) : (e.mapChildren g).children = e.children.map g := by
  cases e <;> simp [mapChildren, children, Function.comp_def, map_flatMap, flatMap_map,
      filterMap_map, map_filterMap, Option.toList_map]

theorem children_retype (e : Expr) : e.retype.children = e.children := by
  cases e <;> rfl

@[simp] theorem mapChildren_id (e : Expr) : e.mapChildren id = e := by
  cases e <;> simp [mapChildren]

/-- A node whose children stay as they are stays as it is. -/
theorem mapChildren_eq_self (h : ∀ c ∈ e.children, g c = c) : e.mapChildren g = e := by
  have hlist {α : Type} {f : α → α} {as : List α} : as.map f = as ↔ ∀ a ∈ as, f a = a := by
    induction as <;> simp_all
  have hpart {part : Option Expr} : part.map g = part ↔ ∀ c ∈ part, g c = c := by
    cases part <;> simp
  cases e <;> simp_all [mapChildren, children, or_imp, forall_and]
  case function =>
    exact fun p hp => congrArg (Param.mk p.var p.optional) (hpart.2 (h.1 · p hp))
  case switch =>
    exact fun c hc => congrArg₂ Case.mk (hlist.2 (h.2.1.1 · c hc)) (hpart.2 (h.2.1.2 · c hc))
  case tryCatch =>
    exact fun k hk => congrArg (Handler.mk k.var) (hpart.2 (h.2 · k hk))

/-- A relation of computations to results that goes through sequences of
them. -/
structure Yields (m : Type → Type) [Monad m] where
  rel : {α : Type} → m α → α → Prop
  pure {α : Type} (a : α) : rel (Pure.pure a) a
  bind {α β : Type} {x : m α} {f : α → m β} {a : α} {b : β} :
    rel x a → rel (f a) b → rel (x >>= f) b

section Yields

variable {m : Type → Type} [Monad m] {T : Yields m} {f : Expr → m Expr} {k : Expr → Expr}

/-- The results of a list of trees are those of the trees. -/
theorem yields_bottomUpList {es : List Expr} (h : ∀ c ∈ es, T.rel (c.bottomUp f) (k c)) :
    T.rel (bottomUpList f es) (es.map k) := by
  induction es with
  | nil => exact T.pure []
  | cons e rest ih =>
    obtain ⟨he, hrest⟩ := forall_mem_cons.1 h
    exact T.bind he (T.bind (ih hrest) (T.pure _))

theorem yields_bottomUpOption (h : ∀ c ∈ part.toList, T.rel (c.bottomUp f) (k c)) :
    T.rel (bottomUpOption f part) (part.map k) := by
  cases part with
  | none => exact T.pure none
  | some e => exact T.bind (h e (.head _)) (T.pure _)

theorem yields_bottomUpFields {fields : List (FieldInit Expr)}
    (h : ∀ c ∈ fields.map FieldInit.value, T.rel (c.bottomUp f) (k c)) :
    T.rel (bottomUpFields f fields) (fields.map fun f => ⟨f.name, k f.value⟩) := by
  induction fields with
  | nil => exact T.pure []
  | cons field rest ih =>
    obtain ⟨hvalue, hrest⟩ := forall_mem_cons.1 h
    exact T.bind hvalue (T.bind (ih hrest) (T.pure _))

theorem yields_bottomUpParams {params : List (Param Expr)}
    (h : ∀ c ∈ params.filterMap Param.default, T.rel (c.bottomUp f) (k c)) :
    T.rel (bottomUpParams f params) (params.map fun p => ⟨p.var, p.optional, p.default.map k⟩) := by
  induction params with
  | nil => exact T.pure []
  | cons p rest ih =>
    rw [filterMap_eq_flatMap_toList, flatMap_cons, ← filterMap_eq_flatMap_toList] at h
    obtain ⟨hdefault, hrest⟩ := forall_mem_append.1 h
    exact T.bind (yields_bottomUpOption hdefault) (T.bind (ih hrest) (T.pure _))

theorem yields_bottomUpCases {cases : List (Case Expr)}
    (h : ∀ c ∈ cases.flatMap fun k => k.values ++ k.body.toList, T.rel (c.bottomUp f) (k c)) :
    T.rel (bottomUpCases f cases) (cases.map fun c => ⟨c.values.map k, c.body.map k⟩) := by
  induction cases with
  | nil => exact T.pure []
  | cons c rest ih =>
    obtain ⟨hc, hrest⟩ := forall_mem_append.1 (flatMap_cons ▸ h)
    obtain ⟨hvalues, hbody⟩ := forall_mem_append.1 hc
    exact T.bind (yields_bottomUpList hvalues) (T.bind (yields_bottomUpOption hbody)
      (T.bind (ih hrest) (T.pure _)))

theorem yields_bottomUpHandlers {handlers : List (Handler Expr)}
    (h : ∀ c ∈ handlers.filterMap Handler.body, T.rel (c.bottomUp f) (k c)) :
    T.rel (bottomUpHandlers f handlers) (handlers.map fun h => ⟨h.var, h.body.map k⟩) := by
  induction handlers with
  | nil => exact T.pure []
  | cons handler rest ih =>
    rw [filterMap_eq_flatMap_toList, flatMap_cons, ← filterMap_eq_flatMap_toList] at h
    obtain ⟨hbody, hrest⟩ := forall_mem_append.1 h
    exact T.bind (yields_bottomUpOption hbody) (T.bind (ih hrest) (T.pure _))

/-- A rebuilt tree is its root with rebuilt children, passed through the
function. -/
theorem yields_bottomUp {r : Expr} (he : e ≠ omitted)
    (h : ∀ c ∈ e.children, T.rel (c.bottomUp f) (k c)) (hf : T.rel (f (e.mapChildren k)) r) :
    T.rel (e.bottomUp f) r := by
  cases e with
  | omitted => exact absurd rfl he
  | const | «local» | typeRef | brk | cont | ident => exact hf
  | field | varDecl | ret => exact T.bind (yields_bottomUpOption h) hf
  | paren | unary | throw | cast | annot | enumParam | enumIndex =>
    exact T.bind (h _ (.head _)) hf
  | index | binary => exact T.bind (h _ (.head _)) (T.bind (h _ (.tail _ (.head _))) hf)
  | object => exact T.bind (yields_bottomUpFields h) hf
  | array | block | new => exact T.bind (yields_bottomUpList h) hf
  | call =>
    obtain ⟨hcallee, hargs⟩ := forall_mem_cons.1 h
    exact T.bind hcallee (T.bind (yields_bottomUpList hargs) hf)
  | function =>
    obtain ⟨hparams, hbody⟩ := forall_mem_append.1 h
    exact T.bind (yields_bottomUpParams hparams) (T.bind (yields_bottomUpOption hbody) hf)
  | forIn | loop =>
    obtain ⟨hfirst, hbody⟩ := forall_mem_cons.1 h
    exact T.bind hfirst (T.bind (yields_bottomUpOption hbody) hf)
  | ite =>
    obtain ⟨hcond, hbranches⟩ := forall_mem_cons.1 h
    obtain ⟨htrue, hfalse⟩ := forall_mem_append.1 hbranches
    exact T.bind hcond (T.bind (yields_bottomUpOption htrue)
      (T.bind (yields_bottomUpOption hfalse) hf))
  | switch =>
    obtain ⟨hsubject, hrest⟩ := forall_mem_cons.1 h
    obtain ⟨hcases, hdefault⟩ := forall_mem_append.1 hrest
    exact T.bind hsubject (T.bind (yields_bottomUpCases hcases)
      (T.bind (yields_bottomUpOption hdefault) hf))
  | tryCatch =>
    obtain ⟨hbody, hhandlers⟩ := forall_mem_append.1 h
    exact T.bind (yields_bottomUpOption hbody) (T.bind (yields_bottomUpHandlers hhandlers) hf)

end Yields

theorem rebuild_eq (he : e ≠ omitted) : e.rebuild g = g (e.mapChildren (rebuild g)) := by
  let T : Yields Id := ⟨fun x a => x.run = a, fun _ => rfl, fun {_ _ _ f _ _} hx hf =>
    (congrArg (fun a => (f a).run) hx).trans hf⟩
  exact yields_bottomUp (T := T) he (fun _ _ => rfl) rfl

/-- What passes from the nodes directly below a node to the node holds of
each tree and the rebuilt one. -/
theorem rebuild_induction {P : Expr → Expr → Prop} (omitted : P omitted omitted)
    (node : ∀ e : Expr, (∀ c ∈ e.children, P c (c.rebuild g)) →
      P e (g (e.mapChildren (rebuild g)))) (e : Expr) : P e (e.rebuild g) := by
  induction e using induction_on_children with
  | step e ih =>
    by_cases he : e = .omitted
    · subst he
      exact omitted
    · rw [rebuild_eq he]
      exact node e ih

/-- Where the results do not depend on the state, rebuilding with it is
rebuilding without. -/
theorem bottomUp_run {σ : Type} {f : Expr → StateM σ Expr} (h : ∀ e s, ((f e).run s).1 = g e)
    (e : Expr) : ∀ s : σ, ((e.bottomUp f).run s).1 = e.rebuild g := by
  let T : Yields (StateM σ) := ⟨fun x a => ∀ s, (x.run s).1 = a, fun _ _ => rfl,
    fun {_ _ x f _ _} hx hf s => (congrArg (fun a => ((f a).run (x.run s).2).1) (hx s)).trans (hf _)⟩
  induction e using induction_on_children with
  | step e ih =>
    by_cases he : e = omitted
    · subst he
      exact fun _ => rfl
    · rw [rebuild_eq he]
      exact yields_bottomUp (T := T) he ih (h _)

/-- The children stand in the same positions. -/
theorem valuePositions_mapChildren (e : Expr) :
    (e.mapChildren g).valuePositions = e.valuePositions.map g := by
  cases e <;> simp [mapChildren, valuePositions, children, Function.comp_def, map_flatMap,
      flatMap_map, filterMap_map, map_filterMap, Option.toList_map]

theorem stmtPositions_mapChildren (e : Expr) :
    (e.mapChildren g).stmtPositions = e.stmtPositions.map g := by
  cases e <;> simp [mapChildren, stmtPositions, filterMap_map, map_filterMap, Option.toList_map]

theorem wrapped_mapChildren (e : Expr) : (e.mapChildren g).wrapped = e.wrapped.map g := by
  cases e <;> rfl

theorem isStatementOnly_mapChildren (e : Expr) :
    (e.mapChildren g).isStatementOnly = e.isStatementOnly := by
  cases e <;> rfl

theorem isPlace_mapChildren (e : Expr) : (e.mapChildren g).isPlace = e.isPlace := by
  cases e <;> rfl

/-- The second tree breaks no rule that the first one keeps. -/
structure Milder (e e' : Expr) : Prop where
  violation : ∀ position, e.violation position = none → e'.violation position = none
  place : e.bare.isPlace = true → e'.bare.isPlace = true
  storable : Storable e → Storable e'

theorem Milder.refl (e : Expr) : Milder e e := ⟨fun _ => id, id, id⟩

theorem Milder.trans {a b c : Expr} (ha : Milder a b) (hb : Milder b c) : Milder a c :=
  ⟨fun position h => hb.violation position (ha.violation position h),
    fun h => hb.place (ha.place h), fun h => hb.storable (ha.storable h)⟩

section

variable (h : ∀ c ∈ e.children, Milder c (g c))
include h

/-- A node with milder children may stand where it could before. -/
theorem mayStand_mapChildren {position : Position}
    (he : e.mayStand position = true) : (e.mapChildren g).mayStand position = true := by
  cases position with
  | value =>
    rw [mayStand, isStatementOnly_mapChildren]
    exact he
  | target =>
    rw [mayStand, isPlace_mapChildren, wrapped_mapChildren, isEmpty_map]
    exact he
  | statement =>
    cases e with
    | binary _ _ op lhs =>
      rw [mapChildren, mayStand] at *
      split at he
      · rename_i hop
        rw [if_pos hop]
        exact (h lhs (.head _)).place he
      · rename_i hop
        rwa [if_neg hop]
    | unary _ _ op _ operand =>
      rw [mapChildren, mayStand, Bool.or_eq_true] at *
      exact he.imp id (h operand (.head _)).place
    | _ => rfl

/-- A node with milder children stores astray only if it did before. -/
theorem misstores_mapChildren (he : e.misstores = false) : (e.mapChildren g).misstores = false := by
  cases e with
  | binary _ _ op lhs _ =>
    simp only [mapChildren, misstores, storesAstray, Bool.and_eq_false_imp, Bool.not_eq_false'] at he ⊢
    exact fun hop => (h lhs (.head _)).place (he hop)
  | unary _ _ op _ operand =>
    simp only [mapChildren, misstores, storesAstray, Bool.and_eq_false_imp, Bool.not_eq_false'] at he ⊢
    exact fun hop => (h operand (.head _)).place (he hop)
  | function _ _ params _ _ =>
    simp only [mapChildren, misstores, any_map, any_eq_false, Function.comp_def,
      Option.any_map] at he ⊢
    intro p hp
    have hdefault := he p hp
    cases hd : p.default with
    | none => simp
    | some d =>
      rw [hd] at hdefault
      have hmem : d ∈ params.filterMap Param.default := mem_filterMap.2 ⟨p, hp, hd⟩
      have hmilder := (h d (mem_append_left _ hmem)).violation .value
      simp only [Option.any_some, Option.isSome_iff_ne_none, ne_eq, not_not] at hdefault ⊢
      exact hmilder hdefault
  | _ => rfl

/-- A node with milder children is milder. -/
theorem milder_mapChildren : Milder e (e.mapChildren g) where
  violation position he := by
    rw [violation_eq_none_iff] at he ⊢
    rw [valuePositions_mapChildren, stmtPositions_mapChildren, wrapped_mapChildren]
    refine ⟨mayStand_mapChildren h he.1, ?_, ?_, ?_⟩
    · exact forall_mem_map.2 fun c hc =>
        (h c (mem_children_iff.2 (.inl hc))).violation _ (he.2.1 c hc)
    · exact forall_mem_map.2 fun c hc =>
        (h c (mem_children_iff.2 (.inr (.inl hc)))).violation _ (he.2.2.1 c hc)
    · exact forall_mem_map.2 fun c hc =>
        (h c (mem_children_iff.2 (.inr (.inr hc)))).violation _ (he.2.2.2 c hc)
  place he := by
    cases e with
    | paren _ _ inner => exact (h inner (.head _)).place he
    | annot _ _ _ inner => exact (h inner (.head _)).place he
    | «local» | field | index => rfl
    | _ => cases he
  storable he := by
    rw [storable_iff] at he ⊢
    rw [children_mapChildren]
    exact ⟨misstores_mapChildren h he.1, forall_mem_map.2 fun c hc => (h c hc).storable (he.2 c hc)⟩

end

/-- Rebuilding with milder nodes gives a milder tree. -/
theorem Milder.rebuild (hg : ∀ e, Milder e (g e)) (e : Expr) : Milder e (e.rebuild g) :=
  rebuild_induction (.refl _) (fun _ ih => (milder_mapChildren ih).trans (hg _)) e

theorem milder_retype (e : Expr) : Milder e e.retype := by
  cases e with
  | paren | annot => exact ⟨fun _ => id, id, id⟩
  | _ => exact .refl _

/-- Bringing the types of a tree up to date breaks no rule. -/
theorem milder_retyped (e : Expr) : Milder e e.retyped := Milder.rebuild milder_retype e

/-! ## Relations between a tree and the rebuilt one -/

/-- The relation is an order that every kind of node passes from its parts
to itself. -/
structure Congruent (R : Expr → Expr → Prop) : Prop where
  refl (e : Expr) : R e e
  trans {a b c : Expr} : R a b → R b c → R a c
  field {loc : Loc} {type : Ty} {ref : MemberRef} {r r' : Option Expr} :
    Option.Rel R r r' → R (.field loc type ref r) (.field loc type ref r')
  index {loc : Loc} {type : Ty} {b b' p p' : Expr} :
    R b b' → R p p' → R (.index loc type b p) (.index loc type b' p')
  paren {loc : Loc} {type : Ty} {i i' : Expr} : R i i' → R (.paren loc type i) (.paren loc type i')
  object {loc : Loc} {type : Ty} {fs fs' : List (FieldInit Expr)} :
    List.Forall₂ (fun f f' => f.name = f'.name ∧ R f.value f'.value) fs fs' →
      R (.object loc type fs) (.object loc type fs')
  array {loc : Loc} {type : Ty} {es es' : List Expr} :
    List.Forall₂ R es es' → R (.array loc type es) (.array loc type es')
  call {loc : Loc} {type : Ty} {c c' : Expr} {as as' : List Expr} :
    R c c' → List.Forall₂ R as as' → R (.call loc type c as) (.call loc type c' as')
  new {loc : Loc} {type : Ty} {cls : TypePath} {ctorType : Ty} {as as' : List Expr} :
    List.Forall₂ R as as' → R (.new loc type cls ctorType as) (.new loc type cls ctorType as')
  binary {loc : Loc} {type : Ty} {op : BinaryOp} {a a' b b' : Expr} :
    R a a' → R b b' → R (.binary loc type op a b) (.binary loc type op a' b')
  unary {loc : Loc} {type : Ty} {op : UnaryOp} {isPost : Bool} {a a' : Expr} :
    R a a' → R (.unary loc type op isPost a) (.unary loc type op isPost a')
  function {loc : Loc} {type : Ty} {ps ps' : List (Param Expr)} {result : Ty} {b b' : Option Expr} :
    List.Forall₂ (fun p p' => p.var = p'.var ∧ p.optional = p'.optional ∧
      Option.Rel R p.default p'.default) ps ps' → Option.Rel R b b' →
      R (.function loc type ps result b) (.function loc type ps' result b')
  varDecl {loc : Loc} {var : Var} {i i' : Option Expr} :
    Option.Rel R i i' → R (.varDecl loc var i) (.varDecl loc var i')
  block {loc : Loc} {type : Ty} {es es' : List Expr} :
    List.Forall₂ R es es' → R (.block loc type es) (.block loc type es')
  forIn {loc : Loc} {var : Var} {i i' : Expr} {b b' : Option Expr} :
    R i i' → Option.Rel R b b' → R (.forIn loc var i b) (.forIn loc var i' b')
  ite {loc : Loc} {type : Ty} {c c' : Expr} {t t' f f' : Option Expr} :
    R c c' → Option.Rel R t t' → Option.Rel R f f' →
      R (.ite loc type c t f) (.ite loc type c' t' f')
  loop {loc : Loc} {test : LoopTest} {c c' : Expr} {b b' : Option Expr} :
    R c c' → Option.Rel R b b' → R (.loop loc test c b) (.loop loc test c' b')
  switch {loc : Loc} {type : Ty} {s s' : Expr} {cs cs' : List (Case Expr)} {d d' : Option Expr} :
    R s s' → List.Forall₂ (fun c c' => List.Forall₂ R c.values c'.values ∧
      Option.Rel R c.body c'.body) cs cs' → Option.Rel R d d' →
      R (.switch loc type s cs d) (.switch loc type s' cs' d')
  ret {loc : Loc} {v v' : Option Expr} : Option.Rel R v v' → R (.ret loc v) (.ret loc v')
  throw {loc : Loc} {v v' : Expr} : R v v' → R (.throw loc v) (.throw loc v')
  cast {loc : Loc} {type : Ty} {checked : Option TypePath} {i i' : Expr} :
    R i i' → R (.cast loc type checked i) (.cast loc type checked i')
  annot {loc : Loc} {type : Ty} {name : String} {i i' : Expr} :
    R i i' → R (.annot loc type name i) (.annot loc type name i')
  tryCatch {loc : Loc} {type : Ty} {b b' : Option Expr} {hs hs' : List (Handler Expr)} :
    Option.Rel R b b' → List.Forall₂ (fun h h' => h.var = h'.var ∧
      Option.Rel R h.body h'.body) hs hs' →
      R (.tryCatch loc type b hs) (.tryCatch loc type b' hs')
  enumParam {loc : Loc} {type : Ty} {ctor : String} {slot : UInt32} {v v' : Expr} :
    R v v' → R (.enumParam loc type v ctor slot) (.enumParam loc type v' ctor slot)
  enumIndex {loc : Loc} {v v' : Expr} : R v v' → R (.enumIndex loc v) (.enumIndex loc v')

section Congruent

variable {R : Expr → Expr → Prop}

/-- Optional parts that are related, as lists. -/
theorem forall₂_toList {part' : Option Expr} (h : Option.Rel R part part') :
    List.Forall₂ R part.toList part'.toList := by
  cases h with
  | some he => exact .cons he .nil
  | none => exact .nil

theorem forall₂_filterMap {Q : α → α → Prop} {f : α → Option Expr}
    (hf : ∀ {a a'}, Q a a' → Option.Rel R (f a) (f a')) {as as' : List α}
    (h : List.Forall₂ Q as as') : List.Forall₂ R (as.filterMap f) (as'.filterMap f) := by
  induction h with
  | nil => exact .nil
  | @cons a a' _ _ ha _ ih =>
    rw [filterMap_cons, filterMap_cons]
    generalize hfa : f a = x
    generalize hfa' : f a' = x'
    have hrel := hf ha
    rw [hfa, hfa'] at hrel
    cases hrel with
    | some he => exact .cons he ih
    | none => exact ih

/-- The parts of cases are related in order. -/
theorem forall₂_cases {cs cs' : List (Case Expr)}
    (h : List.Forall₂ (fun c c' => List.Forall₂ R c.values c'.values ∧
      Option.Rel R c.body c'.body) cs cs') :
    List.Forall₂ R (cs.flatMap fun c => c.values ++ c.body.toList)
      (cs'.flatMap fun c => c.values ++ c.body.toList) := by
  induction h with
  | nil => exact .nil
  | cons hc _ ih =>
    exact rel_append (rel_append hc.1 (forall₂_toList hc.2)) ih

theorem forall₂_map {Q : α → α → Prop} {f : α → α} {as : List α} (h : ∀ a ∈ as, Q a (f a)) :
    List.Forall₂ Q as (as.map f) := by
  rw [forall₂_map_right_iff, forall₂_same]
  exact h

theorem rel_map (h : ∀ c ∈ part.toList, R c (g c)) : Option.Rel R part (part.map g) := by
  cases part with
  | none => exact .none
  | some e => exact .some (h e (.head _))

/-- A node is related to the node with related nodes below it. -/
theorem Congruent.mapChildren (hR : Congruent R) (h : ∀ c ∈ e.children, R c (g c)) :
    R e (e.mapChildren g) := by
  cases e with
  | omitted | const | «local» | typeRef | brk | cont | ident => exact hR.refl _
  | field => exact hR.field (rel_map h)
  | index => exact hR.index (h _ (.head _)) (h _ (.tail _ (.head _)))
  | paren => exact hR.paren (h _ (.head _))
  | object =>
    exact hR.object (forall₂_map fun f hf => ⟨rfl, h f.value (mem_map_of_mem hf)⟩)
  | array => exact hR.array (forall₂_map h)
  | call => exact hR.call (h _ (.head _)) (forall₂_map fun a ha => h a (.tail _ ha))
  | new => exact hR.new (forall₂_map h)
  | binary => exact hR.binary (h _ (.head _)) (h _ (.tail _ (.head _)))
  | unary => exact hR.unary (h _ (.head _))
  | function =>
    obtain ⟨hparams, hbody⟩ := forall_mem_append.1 h
    refine hR.function (forall₂_map fun p hp => ⟨rfl, rfl, rel_map fun c hc => ?_⟩) (rel_map hbody)
    exact hparams c (mem_filterMap.2 ⟨p, hp, Option.mem_toList.1 hc⟩)
  | varDecl => exact hR.varDecl (rel_map h)
  | block => exact hR.block (forall₂_map h)
  | forIn => exact hR.forIn (h _ (.head _)) (rel_map fun c hc => h c (.tail _ hc))
  | ite =>
    obtain ⟨hcond, hbranches⟩ := forall_mem_cons.1 h
    obtain ⟨htrue, hfalse⟩ := forall_mem_append.1 hbranches
    exact hR.ite hcond (rel_map htrue) (rel_map hfalse)
  | loop => exact hR.loop (h _ (.head _)) (rel_map fun c hc => h c (.tail _ hc))
  | switch =>
    obtain ⟨hsubject, hparts⟩ := forall_mem_cons.1 h
    obtain ⟨hcases, hdefault⟩ := forall_mem_append.1 hparts
    rw [forall_mem_flatMap] at hcases
    refine hR.switch hsubject (forall₂_map fun c hc => ?_) (rel_map hdefault)
    obtain ⟨hvalues, hbody⟩ := forall_mem_append.1 (hcases c hc)
    exact ⟨forall₂_map hvalues, rel_map hbody⟩
  | ret => exact hR.ret (rel_map h)
  | throw => exact hR.throw (h _ (.head _))
  | cast => exact hR.cast (h _ (.head _))
  | annot => exact hR.annot (h _ (.head _))
  | tryCatch =>
    obtain ⟨hbody, hhandlers⟩ := forall_mem_append.1 h
    refine hR.tryCatch (rel_map hbody) (forall₂_map fun k hk => ⟨rfl, rel_map fun c hc => ?_⟩)
    exact hhandlers c (mem_filterMap.2 ⟨k, hk, Option.mem_toList.1 hc⟩)
  | enumParam => exact hR.enumParam (h _ (.head _))
  | enumIndex => exact hR.enumIndex (h _ (.head _))

/-- A tree is related to the tree rebuilt by a function that relates its
results to its arguments. -/
theorem Congruent.rebuild (hR : Congruent R) (hg : ∀ e, R e (g e)) (e : Expr) : R e (e.rebuild g) :=
  rebuild_induction (hR.refl _) (fun _ ih => hR.trans (hR.mapChildren ih) (hg _)) e

end Congruent

end LuaBackend.Expr
