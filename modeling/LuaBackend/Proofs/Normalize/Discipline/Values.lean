import LuaBackend.Proofs.Normalize.Discipline.Basic

/-!
# Values under a regimen

Members, literals, calls, functions and operators keep to a regimen if
their parts do.
-/

namespace LuaBackend.Normalize.Disciplined

open Expr Lowering List

variable {R : Regimen} {loc : Loc} {type : Ty} {e : Expr} {assignee : Option Expr}

/-! ## Members and elements -/

section Members

variable {ref : MemberRef} {receiver : Option Lowering}

/-- The function that passes arguments on to a method. -/
structure Forwards (R : Regimen) (type : Ty) (e : Expr) : Prop where
  whole : R.whole e
  pure : e.isPure = true
  stable : e.isStable = true
  like : R.types.like type e.type

/-- The temporaries of its parameters are words of the regimen. -/
theorem forwarder {given receiver : Option Expr} (hsource : R.source (.field loc type ref given))
    (hf : ref.isForwarded = true) (hr : ∀ r ∈ receiver, R.value r) :
    Makes R (forwarder loc type ref receiver) (Forwards R type) :=
  (freshTemps _).bind fun _ hparams => makes_pure
    ⟨R.whole_forwarder hsource hf rfl hr hparams, rfl, rfl, R.types.like_method hsource hf⟩

/-- A forwarded method becomes a function around its receiver. -/
theorem fieldValue (hsource : R.source (.field loc type ref (receiver.map source)))
    (h : ∀ r ∈ receiver, Disciplined R r) : Makes R (fieldValue loc type ref receiver)
      (R.Whole (.field loc type ref (receiver.map source))) := by
  have hplain {v : Expr} (hf : ¬ref.isForwarded = true)
      (hs : (Expr.field loc type ref (receiver.map source)).leavesStable = true) :
      (Expr.field loc type ref (some v)).isStable = true := by
    simpa [leavesStable, bare, isStable, hf] using hs
  cases receiver with
  | none =>
    unfold fieldValue
    by_cases hf : ref.isForwarded = true
    · rw [if_pos hf]
      exact (forwarder hsource hf forall_mem_none).bind fun _ he => makes_pure
        ⟨⟨⟨forall_mem_nil _, R.value_of_whole he.whole⟩, he.like,
          fun _ => ⟨rfl, fun _ => he.pure, fun _ => he.stable⟩⟩, he.whole⟩
    · rw [if_neg hf]
      have hwhole : R.whole (.field loc type ref none) :=
        R.whole_field hsource rfl (Bool.eq_false_iff.2 hf) forall_mem_none
      refine makes_pure ⟨⟨⟨forall_mem_nil _, R.value_of_whole hwhole⟩, R.types.like_refl,
        fun _ => ⟨rfl, fun _ => rfl, fun hs => ?_⟩⟩, hwhole⟩
      simpa [leavesStable, bare, isStable, hf] using hs
  | some r =>
    refine (h r rfl).value.bind fun x hx => ?_
    by_cases hf : ref.isForwarded = true
    · rw [if_pos hf]
      refine (spill hx.value).bind fun y hy => ?_
      refine (forwarder hsource hf (forall_mem_some hy.value)).bind fun _ he => makes_pure
        ⟨⟨⟨forall_mem_append.2 ⟨hx.stmts, hy.stmts⟩, R.value_of_whole he.whole⟩, he.like,
          fun hn => ?_⟩, he.whole⟩
      simp only [Option.map_some, hoists, hf, if_true, Bool.or_eq_false_iff,
        Bool.not_eq_false'] at hn
      -- the receiver moves exactly if it does not leave a stable value
      have hq := hx.quiet hn.1
      rw [hy.stays (by rw [hq.stable hn.2]; rfl), hq.stmts]
      exact ⟨rfl, fun _ => he.pure, fun _ => he.stable⟩
    · rw [if_neg hf]
      refine (spill hx.value).bind fun y hy => ?_
      have hwhole : R.whole (.field loc type ref (some y.value)) := by
        refine R.whole_field hsource rfl (Bool.eq_false_iff.2 hf) (forall_mem_some
          ⟨hy.value, fun hc => hy.pure fun hn => ?_⟩)
        rwa [decide_eq_true hc, Bool.true_and, Bool.not_eq_false'] at hn
      refine makes_pure ⟨⟨⟨forall_mem_append.2 ⟨hx.stmts, hy.stmts⟩,
        R.value_of_whole hwhole⟩, R.types.like_refl, fun hn => ?_⟩, hwhole⟩
      simp only [Option.map_some, hoists, hf, Bool.or_eq_false_iff] at hn
      have hq := hx.quiet hn.1
      have hkept : (decide (ref.access = .closure) && !x.value.isPure) = false := by
        obtain hc | hp := Bool.and_eq_false_iff.1 hn.2
        · rw [hc, Bool.false_and]
        · rw [hq.pure (Bool.not_eq_false' _ ▸ hp), Bool.not_true, Bool.and_false]
      rw [hy.stays hkept, hq.stmts]
      exact ⟨rfl, hq.pure, hplain hf⟩

/-- As a place a member keeps its receiver. -/
theorem field (hsource : R.source (.field loc type ref (receiver.map source)))
    (h : ∀ r ∈ receiver, Disciplined R r) : Disciplined R (.field loc type ref receiver) := by
  have hvalue := fieldValue hsource h
  refine ⟨hvalue.mono fun _ hx => hx.toValue, fun ha how => ?_, fun _ => storeOrDrop hvalue,
    fun _ => storeOrDrop hvalue⟩
  cases receiver with
  | none => exact makes_pure ⟨nofun, R.place_field hsource ha rfl nofun, R.types.like_refl⟩
  | some r =>
    refine (h r rfl).value.bind fun x hx => (spill hx.value).bind fun y hy => makes_pure
      ⟨forall_mem_append.2 ⟨hx.stmts, hy.stmts⟩, ?_, R.types.like_refl⟩
    exact R.place_field hsource ha rfl (forall_mem_some ⟨hy.value, hy.part⟩)

/-- The parts of a place are moved as they have to be. -/
theorem index {base position : Lowering} (hb : Disciplined R base) (hp : Disciplined R position) :
    Disciplined R (.index loc type base position) := by
  have hvalue : Makes R (Lowering.index loc type base position).value
      (R.Whole (.index loc type base.source position.source)) := by
    refine (operandPair hb hp).bind fun r hr => ?_
    have hwhole : R.whole (.index loc type r.2.1 r.2.2) :=
      R.whole_of_place (R.place_index hr.fst hr.snd nofun : R.place .none _)
    refine makes_pure
      ⟨⟨⟨hr.stmts, R.value_of_whole hwhole⟩, R.types.like_refl, fun hn => ?_⟩, hwhole⟩
    simp only [hoists, Bool.or_eq_false_iff] at hn
    obtain ⟨hqb, hqp, hstmts⟩ := hr.quiet hn.1 hn.2
    refine ⟨hstmts, fun hpure => ?_, nofun⟩
    simp only [isPure, Bool.and_eq_true] at hpure ⊢
    exact ⟨hqb.pure hpure.1, hqp.pure hpure.2⟩
  refine ⟨hvalue.mono fun _ hx => hx.toValue, fun _ how => ?_, fun _ => storeOrDrop hvalue,
    fun _ => storeOrDrop hvalue⟩
  refine (operandPair hb hp).bind fun r hr => (spill hr.fst).bind fun b hb =>
    (spill hr.snd).bind fun p hp => makes_pure ⟨?_, R.place_index hb.value hp.value
      fun hhow => forall_mem_cons.2 ⟨hb.part hhow, forall_mem_singleton.2 (hp.part hhow)⟩,
      R.types.like_refl⟩
  exact forall_mem_append.2 ⟨forall_mem_append.2 ⟨hr.stmts, hb.stmts⟩, hp.stmts⟩

end Members

/-! ## Wrappers, literals and calls -/

section Wrappers

variable {inner : Lowering} {args : List Lowering}

/-- What passes from a part to a node around it. -/
structure Passes (R : Regimen) (inner : Expr) (e : Expr) (f : Expr → Expr) : Prop where
  like {v : Expr} : R.types.like inner.type v.type → R.types.like e.type (f v).type
  hoists : e.hoists = inner.hoists
  pure {v : Expr} : (inner.isPure = true → v.isPure = true) → e.isPure = true → (f v).isPure = true
  stable {v : Expr} : (inner.leavesStable = true → v.isStable = true) →
    e.leavesStable = true → (f v).isStable = true

/-- A node around the value of one part. -/
theorem around {f : Expr → Expr} (h : Disciplined R inner) (hf : Passes R inner.source e f)
    (hvalue : ∀ {v}, R.value v → R.value (f v)) :
    Makes R (do let h ← inner.value; return (⟨h.stmts, f h.value⟩ : Hoisted)) (R.Value e) := by
  refine h.value.bind fun x hx => makes_pure
    ⟨⟨hx.stmts, hvalue hx.value⟩, hf.like hx.like, fun hn => ?_⟩
  have hq := hx.quiet (hf.hoists ▸ hn)
  exact ⟨hq.stmts, hf.pure hq.pure, hf.stable hq.stable⟩

theorem nodeAround {f : Expr → Expr} (hplace : e.bare.isPlace = false) (h : Disciplined R inner)
    (hf : Passes R inner.source e f) (hwhole : ∀ {v}, R.value v → R.whole (f v))
    (hparts : ∀ v, (f v).placeParts = []) :
    Makes R (do let h ← inner.value; return (⟨h.stmts, f h.value⟩ : Hoisted)) (R.Node e) := by
  refine h.value.bind fun x hx => makes_pure (R.node hplace hx.stmts (hwhole hx.value)
    (hparts x.value) (hf.like hx.like) fun hn => ?_)
  have hq := hx.quiet (hf.hoists ▸ hn)
  exact ⟨hq.stmts, hf.pure hq.pure, hf.stable hq.stable⟩

section

variable (hlike : ∀ t, R.types.like inner.source.type t → R.types.like type t)
  (h : Disciplined R inner)
include hlike h

theorem paren : Disciplined R (.paren loc type inner) :=
  ⟨around h ⟨hlike _, rfl, id, id⟩ R.value_paren,
    fun ha how => (h.target (R.assignable_wrapped ha (.head _)) how).mono fun _ hx =>
      ⟨hx.stmts, hx.place, hlike _ hx.like⟩, h.stmt, h.body⟩

theorem annot {name : String} : Disciplined R (.annot loc type name inner) :=
  ⟨around h ⟨hlike _, rfl, id, id⟩ R.value_annot,
    fun ha how => (h.target (R.assignable_wrapped ha (.head _)) how).mono fun _ hx =>
      ⟨hx.stmts, hx.place, hlike _ hx.like⟩, h.stmt, h.body⟩

end

theorem cast {checked : Option TypePath} (hsource : R.source (.cast loc type checked inner.source))
    (h : Disciplined R inner) : Disciplined R (.cast loc type checked inner) := by
  refine ofValue (nodeAround rfl h ⟨fun _ => R.types.like_refl, rfl, fun hv hp => ?_,
    nofun⟩ (R.whole_cast hsource) fun _ => rfl)
  cases checked with
  | none => exact hv hp
  | some => cases hp

theorem enumParam {ctor : String} {slot : UInt32} (h : Disciplined R inner) :
    Disciplined R (.enumParam loc type ctor slot inner) :=
  ofValue (@nodeAround _ _ _ (.enumParam loc type · ctor slot) rfl h
    ⟨fun _ => R.types.like_refl, rfl, id, nofun⟩
    R.whole_enumParam fun _ => rfl)

theorem enumIndex (h : Disciplined R inner) : Disciplined R (.enumIndex loc inner) :=
  ofValue (nodeAround rfl h ⟨fun _ => R.types.like_refl, rfl, id,
    nofun⟩ R.whole_enumIndex fun _ => rfl)

/-- A node around several values, neither pure nor stable. -/
theorem listed (hplace : e.bare.isPlace = false) (ls : List Lowering) (f : List Expr → Expr)
    (h : ∀ l ∈ ls, Disciplined R l) (hf : ∀ vs, (∀ v ∈ vs, R.value v) → R.whole (f vs))
    (hparts : ∀ vs, (f vs).placeParts = []) (htype : ∀ vs, (f vs).type = e.type)
    (hoists : e.hoists = false → ∀ l ∈ ls, l.source.hoists = false) (pure : e.isPure = false)
    (stable : e.leavesStable = false) :
    Disciplined R (.ofValue e do
      let (stmts, values) ← Normalize.operands (ls.map Lowering.value)
      return ⟨stmts, f values⟩) := by
  refine ofValue ((operands h).bind fun r hr => makes_pure (R.node hplace hr.1.1 (hf _ hr.1.2)
    (hparts _) (htype r.2 ▸ R.types.like_refl) fun hn => ?_))
  exact ⟨hr.2 (hoists hn), fun hp => absurd (pure.symm.trans hp) Bool.false_ne_true,
    fun hs => absurd (stable.symm.trans hs) Bool.false_ne_true⟩

theorem object {fields : List (FieldInit Lowering)} (h : ∀ f ∈ fields, Disciplined R f.value) :
    Disciplined R (.object loc type fields) := by
  have hnode := listed (e := .object loc type (fields.map fun f => ⟨f.name, f.value.source⟩)) rfl
    (fields.map FieldInit.value)
    (fun vs => .object loc type (fields.zipWith (fun f v => ⟨f.name, v⟩) vs))
    (forall_mem_map.2 h) (fun vs hvs => R.whole_object fun f hf => by
      obtain ⟨i, hi, rfl⟩ := mem_iff_getElem.1 hf
      rw [getElem_zipWith]
      exact hvs _ (getElem_mem _)) (fun _ => rfl) (fun _ => rfl)
    (fun hn => forall_mem_map.2 fun f hf =>
      hoistsFields_eq_false.1 hn _ (mem_map_of_mem hf)) rfl rfl
  rw [map_map] at hnode
  exact hnode

theorem array (h : ∀ e ∈ args, Disciplined R e) : Disciplined R (.array loc type args) :=
  listed rfl args (.array loc type) h (fun _ => R.whole_array) (fun _ => rfl) (fun _ => rfl)
    hoistsList_source rfl rfl

theorem new {cls : TypePath} {ctorType : Ty} (hcls : R.word (.type cls))
    (h : ∀ a ∈ args, Disciplined R a) : Disciplined R (.new loc type cls ctorType args) :=
  listed rfl args (.new loc type cls ctorType) h (fun _ => R.whole_new hcls) (fun _ => rfl)
    (fun _ => rfl) hoistsList_source rfl rfl

theorem value_headD {values : List Expr} (h : ∀ v ∈ values, R.value v) :
    R.value (values.headD .omitted) := by
  cases values with
  | nil => exact R.value_of_whole R.whole_omitted
  | cons v => exact h v (.head _)

/-- The receiver is taken in place of the member. -/
theorem callMember {memberLoc : Loc} {memberType : Ty} {ref : MemberRef}
    {receiver : Option Lowering}
    (hsource : R.source (.field memberLoc memberType ref (receiver.map Lowering.source)))
    (hr : ∀ r ∈ receiver, Disciplined R r) (ha : ∀ a ∈ args, Disciplined R a) :
    Disciplined R (.callMember loc type memberLoc memberType ref receiver args) := by
  cases receiver with
  | none =>
    exact listed rfl args (.call loc type (.field _ _ ref none)) ha
      (fun _ => R.whole_callMember hsource nofun) (fun _ => rfl) (fun _ => rfl)
      (fun hn => hoistsList_source hn) rfl rfl
  | some r =>
    refine listed rfl (r :: args)
      (fun vs => .call loc type (.field _ _ ref (some (vs.headD .omitted))) vs.tail)
      (forall_mem_cons.2 ⟨hr r rfl, ha⟩) (fun _ hvs => R.whole_callMember hsource
        (forall_mem_some (value_headD hvs)) fun v hv => hvs v (mem_of_mem_tail hv))
      (fun _ => rfl) (fun _ => rfl) (fun hn => ?_) rfl rfl
    simp only [Option.map_some, hoists, Bool.or_eq_false_iff] at hn
    exact forall_mem_cons.2 ⟨hn.1, hoistsList_source hn.2⟩

/-- A callee that is no member is a value. -/
theorem call (hfield : ∀ memberLoc memberType ref receiver,
      inner.source ≠ .field memberLoc memberType ref receiver)
    (hsource : R.source inner.source) (hc : Disciplined R inner)
    (ha : ∀ a ∈ args, Disciplined R a) : Disciplined R (.call loc type inner args) := by
  have hoists : (Expr.call loc type inner.source (args.map Lowering.source)).hoists = false →
      inner.source.hoists = false ∧ ∀ a ∈ args, a.source.hoists = false := by
    intro hn
    rw [hoists_call hfield, Bool.or_eq_false_iff] at hn
    exact ⟨hn.1, hoistsList_source hn.2⟩
  have hplain (hcallee : R.value inner.source) := listed (e := .call loc type inner.source
    (args.map Lowering.source)) rfl args (.call loc type inner.source) ha
    (fun _ => R.whole_call hcallee) (fun _ => rfl) (fun _ => rfl) (fun hn => (hoists hn).2) rfl rfl
  unfold Lowering.call
  split
  · rename_i heq
    exact hplain (heq ▸ R.value_of_whole (R.whole_ident (heq ▸ hsource)))
  · rename_i heq
    exact hplain (heq ▸ value_const)
  · exact listed rfl (inner :: args) (fun vs => .call loc type (vs.headD .omitted) vs.tail)
      (forall_mem_cons.2 ⟨hc, ha⟩) (fun _ hvs => R.whole_call (value_headD hvs)
        fun v hv => hvs v (mem_of_mem_tail hv)) (fun _ => rfl) (fun _ => rfl)
      (fun hn => forall_mem_cons.2 (hoists hn)) rfl rfl

theorem function {params : List (Param Expr)} {result : Ty} {body : Option Lowering}
    (hsource : R.source (.function loc type params result (body.map source)))
    (hb : ∀ b ∈ body, Disciplined R b) : Disciplined R (.function loc type params result body) := by
  refine ofValue ?_
  cases body with
  | none =>
    exact makes_pure (R.node rfl nofun (R.whole_function hsource nofun) rfl R.types.like_refl
      fun _ => ⟨rfl, fun _ => rfl, fun _ => rfl⟩)
  | some b =>
    exact ((hb b rfl).body none nofun).bind fun stmts hs => makes_pure (R.node rfl nofun
      (R.whole_function hsource (forall_mem_some (R.scope_block hs))) rfl R.types.like_refl
      fun _ => ⟨rfl, fun _ => rfl, fun _ => rfl⟩)

end Wrappers

/-! ## Operators -/

section Binary

variable {op : BinaryOp} {lhs rhs : Lowering}

abbrev KeepsTypes (R : Regimen) (loc : Loc) (type : Ty) (op : BinaryOp) (lhs rhs : Lowering) : Prop :=
  OperatorRule R.types.like R.types.made loc type op lhs.source.type rhs.source.type

/-- The place of a plain assignment stays if the right side is pure. -/
theorem pure_of_assignSpill {y : Hoisted} (h : assignSpill op rhs.source = .none)
    (hy : R.Value rhs.source y) : op = .assign ∧ y.value.isPure = true := by
  unfold assignSpill at h
  split at h
  · cases h
  · rename_i hquiet
    split at h
    · cases h
    · rename_i hcalm
      rw [Bool.or_eq_true_iff, not_or, decide_eq_true_iff, not_not] at hcalm
      exact ⟨hcalm.1, (hy.quiet (Bool.eq_false_iff.2 hquiet)).pure (by simpa using hcalm.2)⟩

/-- The place of an assignment is also its value. -/
theorem assignment (hop : op.isAssignment = true) (ht : KeepsTypes R loc type op lhs rhs)
    (hplace : R.assignable lhs.source) (hl : Disciplined R lhs) (hr : Disciplined R rhs) :
    Makes R (assignment loc type op lhs rhs) fun h =>
      ∃ how, R.Place how (.binary loc type op lhs.source rhs.source) h := by
  unfold Lowering.assignment
  split
  · refine (hl.target hplace _).bind fun x hx =>
      (hr.stmt _ (forall_mem_some hx.place)).bind fun _ hs => makes_pure ?_
    exact ⟨_, forall_mem_append.2 ⟨hx.stmts, hs⟩, hx.place, ht.assigned hop hx.like⟩
  · refine (hl.target hplace _).bind fun x hx => hr.value.bind fun y hy => makes_pure
      ⟨_, ?_, hx.place, ht.assigned hop hx.like⟩
    exact stmts_snoc (forall_mem_append.2 ⟨hx.stmts, hy.stmts⟩)
      (R.stmt_assign hop (ht.made hx.like hy.like) hx.place hy.value
        fun hnone => pure_of_assignSpill hnone hy)

/-- The value is kept in a temporary, into which the right side stores. -/
theorem skipping {h : Hoisted} (cond : Var → Expr) (hplace : e.bare.isPlace = false)
    (hh : R.Part h) (hr : Disciplined R rhs)
    (hcond : ∀ t, R.word (.var t) → R.value (cond t)) (hlike : R.types.like e.type type)
    (he : e.hoists = true) :
    Makes R (do
      let t ← freshTemp type
      let stmts ← Lowering.scope (some rhs) (some (.local loc t))
      return ⟨h.stmts ++ [.varDecl loc t (some h.value), .ite loc .void (cond t) (some stmts) none],
        .local loc t⟩) (R.Node e) := by
  refine (temp _).bind fun t ht => ?_
  refine (scope (forall_mem_some hr) (forall_mem_some (R.place_local ht.1))).bind fun stmts hs => ?_
  refine makes_pure (R.node hplace (forall_mem_append.2 ⟨hh.stmts,
    forall_mem_cons.2 ⟨?_, forall_mem_singleton.2 ?_⟩⟩) (whole_local ht.1) rfl
    (R.types.like_trans hlike ht.2) (quiet_of_hoists he))
  · exact R.stmt_varDecl ht.1 (forall_mem_some hh.value)
  · exact R.stmt_ite (hcond t ht.1) hs nofun

/-- An operation without statements on quiet operands. -/
theorem quiet_binary {x y : Hoisted} {stmts : List Expr} (hx : Quiet lhs.source x)
    (hy : Quiet rhs.source y) (hs : stmts = []) : Quiet
      (.binary loc type op lhs.source rhs.source) ⟨stmts, .binary loc type op x.value y.value⟩ := by
  refine ⟨hs, fun hp => ?_, nofun⟩
  simp only [isPure, Bool.and_eq_true] at hp ⊢
  exact ⟨⟨hp.1.1, hx.pure hp.1.2⟩, hy.pure hp.2⟩

/-- Statements of the right side stand in the branch that runs it. -/
theorem shortCircuit (hop : op = .and ∨ op = .or) (ht : KeepsTypes R loc type op lhs rhs)
    (hl : Disciplined R lhs) (hr : Disciplined R rhs) :
    Makes R (Lowering.shortCircuit loc type op lhs rhs)
      (R.Node (.binary loc type op lhs.source rhs.source)) := by
  have hmutating : op.isMutating = false := by
    rcases hop with rfl | rfl
    · rfl
    · rfl
  refine hl.value.bind fun x hx => ?_
  split
  · rename_i hrhs
    refine skipping (fun t => if op = .or then .mkUnary loc .not false (.local loc t)
      else .local loc t) rfl hx.toPart hr (fun t ht => ?_) (ht.decided hop)
      (by rw [Expr.hoists, hrhs, Bool.or_true])
    split
    · exact R.value_of_whole (R.whole_unary rfl (value_local ht))
    · exact value_local ht
  · refine hr.value.bind fun y hy => makes_pure (R.node rfl
      (forall_mem_append.2 ⟨hx.stmts, hy.stmts⟩) (R.whole_binary hmutating
        (ht.made hx.like hy.like) hx.value hy.value) rfl R.types.like_refl fun hn => ?_)
    simp only [hoists, Bool.or_eq_false_iff] at hn
    have hqx := hx.quiet hn.1.2
    have hqy := hy.quiet hn.2
    exact quiet_binary hqx hqy (by rw [hqx.stmts, hqy.stmts]; rfl)

theorem nullCoalesce (ht : KeepsTypes R loc type .nullCoalesce lhs rhs) (hl : Disciplined R lhs)
    (hr : Disciplined R rhs) : Makes R (Lowering.nullCoalesce loc type lhs rhs)
      (R.Node (.binary loc type .nullCoalesce lhs.source rhs.source)) :=
  hl.value.bind fun _ hx => skipping
    (fun t => .mkBinary loc .eq (.local loc t) (.nullLit loc)) rfl hx.toPart hr
    (fun _ ht => R.value_of_whole (R.whole_binary rfl (R.types.made_plain (.inr (.inl rfl)))
      (value_local ht) value_const)) (ht.coalesced rfl) rfl

theorem operation (hop : op.isMutating = false) (ht : KeepsTypes R loc type op lhs rhs)
    (hl : Disciplined R lhs) (hr : Disciplined R rhs) :
    Makes R (operation loc type op lhs rhs)
      (R.Node (.binary loc type op lhs.source rhs.source)) := by
  refine (operandPair hl hr).bind fun r hr => makes_pure (R.node rfl hr.stmts (R.whole_binary hop
    (ht.made hr.like_fst hr.like_snd) hr.fst hr.snd) rfl R.types.like_refl fun hn => ?_)
  simp only [hoists, Bool.or_eq_false_iff] at hn
  obtain ⟨hqa, hqb, hstmts⟩ := hr.quiet hn.1.2 hn.2
  exact quiet_binary hqa hqb hstmts

theorem binary (hplace : op.isAssignment = true → R.assignable lhs.source)
    (ht : KeepsTypes R loc type op lhs rhs) (hl : Disciplined R lhs) (hr : Disciplined R rhs) :
    Disciplined R (.binary loc type op lhs rhs) := by
  have hassigned (hop : op.isAssignment = true) : Makes R (Lowering.assignment loc type op lhs rhs)
      (R.Node (.binary loc type op lhs.source rhs.source)) := by
    refine (assignment hop ht (hplace hop) hl hr).mono fun h hh => ?_
    obtain ⟨how, hstmts, hh, hlike⟩ := hh
    have hhoists : (Expr.binary loc type op lhs.source rhs.source).hoists = true := by
      cases op with
      | assign | compound => rfl
      | _ => cases hop
    exact ⟨⟨⟨⟨hstmts, R.value_of_whole (R.whole_of_place hh)⟩, hlike, quiet_of_hoists hhoists⟩,
      R.whole_of_place hh⟩, fun ha _ => R.place_assigned ha hop hh⟩
  have hvalue : Makes R (binaryValue loc type op lhs rhs)
      (R.Node (.binary loc type op lhs.source rhs.source)) := by
    unfold binaryValue
    split
    · exact hassigned rfl
    · exact hassigned rfl
    · exact nullCoalesce ht hl hr
    · exact shortCircuit (.inl rfl) ht hl hr
    · exact shortCircuit (.inr rfl) ht hl hr
    · rename_i hassign hcompound hcoalesce _ _
      have hop : op.isMutating = false := by
        cases op with
        | assign => exact absurd rfl hassign
        | compound inner => exact absurd rfl (hcompound inner)
        | nullCoalesce => exact absurd rfl hcoalesce
        | _ => rfl
      exact operation hop ht hl hr
  unfold Lowering.binary
  split
  · rename_i hop
    have hstmt (assignee : Option Expr) (ha : ∀ p ∈ assignee, R.place .unstable p) :
        Makes R (assignStmt loc type op lhs rhs assignee) R.Stmts := by
      refine (hassigned hop).bind fun x hx => ?_
      cases assignee with
      | none => exact makes_pure hx.stmts
      | some place =>
        exact makes_pure (stmts_snoc hx.stmts (stmt_mkAssign (ha place rfl) hx.value))
    exact ⟨(ofValue hvalue).value, (ofValue hvalue).target, hstmt, hstmt⟩
  · exact ofValue hvalue

end Binary

section Unary

variable {op : UnaryOp} {isPost : Bool} {operand : Lowering}

/-- What is kept of the type of an operand. -/
structure UnaryKeeps (R : Regimen) (loc : Loc) (type : Ty) (op : UnaryOp) (operand : Expr) :
    Prop where
  assignable : op.isStep = true → R.assignable operand
  like {t : Ty} : R.types.like operand.type t → R.types.like type (op.resultType t)
  made {p : Expr} : op.isStep = true → R.types.like operand.type p.type →
    R.types.made (.binary loc p.type (.compound op.stepOp) p (.intLit loc 1))

/-- A step is an assignment to its place. -/
theorem step (hop : op.isStep = true) (ht : UnaryKeeps R loc type op operand.source)
    (h : Disciplined R operand) : Makes R (step loc op operand)
      (R.Node (.unary loc type op isPost operand.source)) := by
  refine (h.target (ht.assignable hop) _).bind fun x hx => makes_pure ?_
  have hwhole : R.whole x.value := R.whole_of_place hx.place
  have hresult : op.resultType x.value.type = x.value.type := by
    cases op with
    | not => cases hop
    | _ => rfl
  refine ⟨⟨⟨⟨stmts_snoc hx.stmts (R.stmt_assign rfl (ht.made hop hx.like) hx.place value_const
    nofun), R.value_of_whole hwhole⟩, hresult ▸ ht.like hx.like, quiet_of_hoists ?_⟩, hwhole⟩,
    fun _ _ => R.place_of_place (by decide : Spill.impure ≠ .none) hx.place⟩
  rw [hoists, hop]
  rfl

/-- The old value is kept in a temporary. -/
theorem stepAfter (hop : op.isStep = true) (ht : UnaryKeeps R loc type op operand.source)
    (h : Disciplined R operand) : Makes R (stepAfter loc type op operand)
      (R.Node (.unary loc type op isPost operand.source)) := by
  refine (h.target (ht.assignable hop) _).bind fun x hx => (temp _).bind fun t htemp => ?_
  refine makes_pure (R.node rfl (forall_mem_append.2 ⟨hx.stmts,
    forall_mem_cons.2 ⟨?_, forall_mem_singleton.2 ?_⟩⟩) (whole_local htemp.1) rfl htemp.2
    (quiet_of_hoists (by rw [hoists, hop]; rfl)))
  · exact R.stmt_varDecl htemp.1 (forall_mem_some (R.value_of_whole (R.whole_of_place hx.place)))
  · exact R.stmt_assign rfl (ht.made hop hx.like) hx.place value_const nofun

theorem unary (ht : UnaryKeeps R loc type op operand.source) (h : Disciplined R operand) :
    Disciplined R (.unary loc type op isPost operand) := by
  have hvalue : Makes R (unaryValue loc type op isPost operand)
      (R.Node (.unary loc type op isPost operand.source)) := by
    unfold unaryValue
    by_cases hop : op.isStep = true
    · rw [if_pos hop]
      split
      · exact stepAfter hop ht h
      · exact step hop ht h
    · have hoff : op.isStep = false := Bool.eq_false_iff.2 hop
      rw [if_neg hop]
      refine nodeAround rfl h ⟨ht.like, by rw [hoists, hoff, Bool.false_or], fun hv hp => ?_,
        nofun⟩ (R.whole_unary hoff) fun _ => rfl
      simp only [mkUnary, isPure, Bool.and_eq_true] at hp ⊢
      exact ⟨hp.1, hv hp.2⟩
  have hstmt (assignee : Option Expr) (ha : ∀ p ∈ assignee, R.place .unstable p) :
      Makes R (unaryStmt loc type op isPost operand assignee) R.Stmts := by
    unfold unaryStmt
    split
    · rename_i hstep
      rw [Bool.and_eq_true] at hstep
      exact (@step R loc type op isPost operand hstep.1 ht h).bind fun _ hx => makes_pure hx.stmts
    · exact storeOrDrop (hvalue.mono fun _ hx => hx.toWhole) ha
  exact ⟨(ofValue hvalue).value, (ofValue hvalue).target, hstmt, hstmt⟩

end Unary

end LuaBackend.Normalize.Disciplined
