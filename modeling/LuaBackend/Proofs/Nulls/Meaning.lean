import LuaBackend.Proofs.Nulls.Fold
import LuaBackend.Proofs.Semantics.Confined
import LuaBackend.Proofs.Tree.Scope

/-!
# Folding preserves meaning

A comparison with null is decided where the type of the other side rules
null out. So folding relies on the types: an expression whose type does
not admit null must not evaluate to null. That is asked of the states that
the program comes to (`Setting.Honest`); in other states a local may hold
anything. Under this condition the folded tree does in every such state
what the tree does.
-/

namespace LuaBackend

open List

/-- Comparing with null tells whether both values are null, and truth
values are not null. -/
structure Machine.ComparesNull (M : Machine) : Prop where
  eq_of_null {v w : M.Value} : v = M.null ∨ w = M.null →
    M.binary .eq v w = M.const (.bool (M.isNull v && M.isNull w))
  ne_of_null {v w : M.Value} : v = M.null ∨ w = M.null →
    M.binary .ne v w = M.const (.bool !(M.isNull v && M.isNull w))
  bool_ne_null (b : Bool) : M.const (.bool b) ≠ M.null

namespace Nulls

open Exec Expr

variable {e : Expr} {admits : Nullability} {equal : Bool}

def comparison (equal : Bool) : BinaryOp := if equal then .eq else .ne

/-- It can be seen whether the node is null: it is the literal, or its type
rules null out and evaluating it only reads. -/
structure Seen (admits : Nullability) (e : Expr) : Prop where
  pure : e.isPure = true
  type : e.isNull = false → e.type.isUntyped = false ∧ admits e.type = false

theorem isPure_of_isNull : ∀ e : Expr, e.isNull = true → e.isPure = true
  | .paren _ _ inner, h | .annot _ _ _ inner, h | .cast _ _ none inner, h =>
    isPure_of_isNull inner h
  | .const _ _ .null, _ => rfl

theorem seen_of_isNull (h : e.isNull = true) : Seen admits e :=
  ⟨isPure_of_isNull e h, fun h' => nomatch h.symm.trans h'⟩

/-- What only reads and is not null by its type can be seen not to be null. -/
theorem seen_of_rejected {value : Bool}
    (h : (if e.type.isUntyped || admits e.type || !e.isPure then none else some (!equal))
      = some value) : Seen admits e ∧ value = !equal := by
  split at h
  · exact nomatch h
  · rename_i hcond
    simp only [Bool.or_eq_true, not_or, Bool.not_eq_true, Bool.not_eq_false'] at hcond
    exact ⟨⟨hcond.2, fun _ => hcond.1⟩, (Option.some.inj h).symm⟩

/-- A comparison is decided if one side is null and the other side can be
seen to be null or not. -/
theorem seen_of_decide? {value : Bool} {lhs rhs : Expr}
    (h : decide? admits equal lhs rhs = some value) :
    Seen admits lhs ∧ Seen admits rhs ∧ (lhs.isNull || rhs.isNull) = true ∧
      value = (equal == (lhs.isNull && rhs.isNull)) := by
  unfold decide? at h
  cases hl : lhs.isNull with
  | true =>
    cases hr : rhs.isNull with
    | true =>
      rw [hl, hr] at h
      exact ⟨seen_of_isNull hl, seen_of_isNull hr, rfl, by rw [← Option.some.inj h]; simp⟩
    | false =>
      rw [hl, hr] at h
      obtain ⟨hseen, rfl⟩ := seen_of_rejected h
      exact ⟨seen_of_isNull hl, hseen, rfl, by simp⟩
  | false =>
    cases hr : rhs.isNull with
    | true =>
      rw [hl, hr] at h
      obtain ⟨hseen, rfl⟩ := seen_of_rejected h
      exact ⟨hseen, seen_of_isNull hr, rfl, by simp⟩
    | false =>
      rw [hl, hr] at h
      exact nomatch h

/-- Only comparisons for equality have an outcome. -/
theorem decide?_of_outcome? {value : Bool} (h : outcome? admits e = some value) :
    ∃ loc type equal lhs rhs, e = .binary loc type (comparison equal) lhs rhs ∧
      decide? admits equal lhs rhs = some value := by
  unfold outcome? at h
  split at h
  · exact ⟨_, _, true, _, _, rfl, h⟩
  · exact ⟨_, _, false, _, _, rfl, h⟩
  · exact nomatch h

/-- A comparison between operands that only read gives way to a truth value
in the same place. -/
inductive Decides : Expr → Expr → Prop where
  | compare {loc : Loc} {type : Ty} {equal : Bool} {lhs rhs : Expr} (value : Bool) :
    lhs.isPure = true → rhs.isPure = true →
      Decides (.binary loc type (comparison equal) lhs rhs) (.boolLit loc value)

def Derives (step : Expr → Expr → Prop) (a b : Expr) : Prop :=
  ∀ R, Congruent R → (∀ x y, step x y → R x y) → R a b

/-- Folding replaces nodes by truth values, after the types are up to date. -/
theorem derives_folded (admits : Nullability) (e : Expr) :
    Derives Decides e.retyped (folded admits e) := by
  intro R hR hstep
  rw [folded_eq_rebuild]
  refine hR.rebuild (fun n => ?_) e.retyped
  unfold decided
  cases hout : outcome? admits n with
  | none => exact hR.refl n
  | some value =>
    obtain ⟨loc, type, equal, lhs, rhs, rfl, hdecide⟩ := decide?_of_outcome? hout
    obtain ⟨hlhs, hrhs, -⟩ := seen_of_decide? hdecide
    exact hstep _ _ (.compare value hlhs.pure hrhs.pure)

/-! ## What a program relies on -/

/-- A machine, a number of rounds for each loop, a policy on null, and a
property of the states that a program comes to. -/
structure Setting where
  machine : Machine
  rounds : Nat
  admits : Nullability
  holds : State machine → Prop

namespace Setting

open Setting

variable (S : Setting)
variable {loc : Loc} {type : Ty} {e i : Expr} {es es' : List Expr} {part : Option Expr}

def value (e : Expr) : Exec S.machine S.machine.Value := eval S.machine S.rounds e

def place (e : Expr) : Exec S.machine (Place S.machine.Value) := evalPlace S.machine S.rounds e

def callee (e : Expr) : Exec S.machine (Callee S.machine.Value) :=
  evalCallee S.machine S.rounds e

/-- The variables that a node sets itself leave the states as they should
be. -/
def Binds : Expr → Prop
  | .forIn _ var _ _ => Iterates S.holds var.id
  | .tryCatch _ _ _ handlers => ∀ v ∈ handlers.map Handler.var, Takes S.holds v
  | _ => True

/-- The node is no function literal and leaves the states as they should
be. If it only reads and its type does not admit null, its value is not
null. -/
structure Honest (e : Expr) : Prop where
  noFunction : e.isFunction = false
  keeps : Maintains S.holds (S.value e)
  binds : S.Binds e
  notNull : e.isPure = true → e.type.isUntyped = false → S.admits e.type = false →
    ∀ σ, S.holds σ → ∀ v σ', S.value e σ = some (.ok v, σ') → v ≠ S.machine.null

abbrev Trusted (e : Expr) : Prop := Throughout S.Honest e

/-- The second tree does what the first does, wherever it stands. -/
structure Twin (a b : Expr) : Prop where
  pure : b.isPure = true → a.isPure = true
  value : Tracks S.holds (S.value a) (S.value b)
  place : Tracks S.holds (S.place a) (S.place b)
  callee : Tracks S.holds (S.callee a) (S.callee b)

def Kept (a b : Expr) : Prop := S.Trusted a → S.Trusted b ∧ S.Twin a b

variable {S} {a b : Expr}

/-- Trees that replace trusted ones are trusted. -/
theorem trusted_of_kept (h : List.Forall₂ S.Kept es es') (hes : ∀ e ∈ es, S.Trusted e) :
    ∀ e ∈ es', S.Trusted e := by
  induction h with
  | nil => exact fun _ he => nomatch he
  | cons hk _ ih =>
    rw [forall_mem_cons] at hes ⊢
    exact ⟨(hk hes.1).1, ih hes.2⟩

theorem forall₂_of_mem {α β : Type} {R R' : α → β → Prop} {as : List α} {bs : List β}
    (h : List.Forall₂ R as bs) (himp : ∀ x ∈ as, ∀ y, R x y → R' x y) : List.Forall₂ R' as bs :=
  ((forall₂_and_left _ _).2 ⟨fun _ hx => hx, h⟩).imp fun x y hxy => himp x hxy.1 y hxy.2

theorem map_eq_of_forall₂ {α β : Type} {R : α → α → Prop} {f : α → β} {as bs : List α}
    (h : List.Forall₂ R as bs) (hf : ∀ x y, R x y → f x = f y) : as.map f = bs.map f := by
  rw [← forall₂_eq_eq_eq, forall₂_map_left_iff, forall₂_map_right_iff]
  exact h.imp hf

/-- Trees that replace each other evaluate alike. -/
theorem Kept.tracks (h : S.Kept a b) (ha : S.Trusted a) :
    (tracking S.holds).value S.rounds a b := (h ha).2.value

theorem tracks_list (h : List.Forall₂ S.Kept es es') (hes : ∀ e ∈ es, S.Trusted e) :
    List.Forall₂ ((tracking S.holds).value S.rounds) es es' :=
  forall₂_of_mem h fun e he _ hk => hk.tracks (hes e he)

theorem tracks_option {part' : Option Expr} (h : Option.Rel S.Kept part part')
    (hpart : ∀ e ∈ part.toList, S.Trusted e) :
    Option.Rel ((tracking S.holds).value S.rounds) part part' := by
  cases h with
  | none => exact .none
  | some hk => exact .some (hk.tracks (hpart _ (.head _)))

/-- Of nodes that do the same in honest states, one is honest if the other
is. -/
theorem Honest.transfer (ha : S.Honest a) (htype : b.type = a.type)
    (hfun : b.isFunction = a.isFunction) (hbinds : S.Binds a → S.Binds b)
    (hpure : b.isPure = true → a.isPure = true)
    (hvalue : AgreeOn S.holds (S.value a) (S.value b)) : S.Honest b where
  noFunction := hfun.trans ha.noFunction
  keeps := hvalue.keeps ha.keeps
  binds := hbinds ha.binds
  notNull hb hknown hadmits σ hσ v σ' hv := by
    rw [htype] at hknown hadmits
    exact ha.notNull (hpure hb) hknown hadmits σ hσ v σ' ((hvalue σ hσ).trans hv)

/-- A node is kept if its parts are and it does the same with them. -/
theorem kept_of_children (hchildren : List.Forall₂ S.Kept a.children b.children)
    (htype : b.type = a.type) (hfun : b.isFunction = a.isFunction)
    (hbinds : S.Binds a → S.Binds b)
    (hpure : S.Trusted a → b.isPure = true → a.isPure = true)
    (hvalue : S.Trusted a → AgreeOn S.holds (S.value a) (S.value b))
    (hplace : S.Trusted a → Tracks S.holds (S.place a) (S.place b))
    (hcallee : S.Trusted a → Tracks S.holds (S.callee a) (S.callee b)) : S.Kept a b := by
  intro ha
  have hb := ha.node.transfer htype hfun hbinds (hpure ha) (hvalue ha)
  have hbelow := trusted_of_kept hchildren fun c hc => ha.child hc
  exact ⟨throughout_iff.2 ⟨hb, hbelow⟩, hpure ha, ⟨hvalue ha, ha.node.keeps⟩, hplace ha, hcallee ha⟩

section

variable (hchildren : List.Forall₂ S.Kept a.children b.children) (htype : b.type = a.type)
  (hfun : b.isFunction = a.isFunction) (hplace : S.place a = pure .nowhere)
  (hplace' : S.place b = pure .nowhere) (hcallee : S.callee a = do return .value (← S.value a))
  (hcallee' : S.callee b = do return .value (← S.value b)) (hbinds : S.Binds a → S.Binds b)
include hchildren htype hfun hplace hplace' hcallee hcallee' hbinds

/-- A node that is no place and is called by its value. -/
theorem kept_plain (hpure : S.Trusted a → b.isPure = true → a.isPure = true)
    (hvalue : S.Trusted a → AgreeOn S.holds (S.value a) (S.value b)) : S.Kept a b := by
  refine kept_of_children hchildren htype hfun hbinds hpure hvalue (fun _ => ?_) fun ha => ?_
  · rw [hplace, hplace']
    exact tracks_pure _
  · rw [hcallee, hcallee']
    exact Tracks.bind ⟨hvalue ha, ha.node.keeps⟩ fun _ => tracks_pure _

/-- The same where the new node does more than read. -/
theorem kept_impure (himpure : b.isPure = false)
    (hvalue : S.Trusted a → AgreeOn S.holds (S.value a) (S.value b)) : S.Kept a b :=
  kept_plain hchildren htype hfun hplace hplace' hcallee hcallee' hbinds
    (fun _ hpure => absurd (himpure.symm.trans hpure) Bool.false_ne_true) hvalue

end

/-- A wrapper that only passes its inner node on. -/
theorem kept_wrapper {i' : Expr} (hi : S.Kept i i') (ha : a.children = [i]) (hb : b.children = [i'])
    (htype : b.type = a.type) (hfun : b.isFunction = a.isFunction) (hva : S.value a = S.value i)
    (hvb : S.value b = S.value i') (hpa : S.place a = S.place i) (hpb : S.place b = S.place i')
    (hca : S.callee a = do return .value (← S.value i))
    (hcb : S.callee b = do return .value (← S.value i')) (hbinds : S.Binds a → S.Binds b)
    (hpure : (i'.isPure = true → i.isPure = true) → b.isPure = true → a.isPure = true) :
    S.Kept a b := by
  have hinner (h : S.Trusted a) : S.Twin i i' :=
    (hi (h.child (ha ▸ mem_singleton.2 rfl))).2
  refine kept_of_children (ha ▸ hb ▸ .cons hi .nil) htype hfun hbinds
    (fun h => hpure (hinner h).pure) (fun h => ?_) (fun h => ?_) fun h => ?_
  · rw [hva, hvb]
    exact (hinner h).value.agree
  · rw [hpa, hpb]
    exact (hinner h).place
  · rw [hca, hcb]
    exact (hinner h).value.bind fun _ => tracks_pure _

/-! ## Nodes -/

theorem Trusted.option (he : S.Trusted e) (hpart : part.toList ⊆ e.children) :
    Option.Rel ((tracking S.holds).value S.rounds) part part := by
  cases part with
  | none => exact .none
  | some => exact .some ⟨.refl _, (he.child (hpart (.head _))).node.keeps⟩

/-- A place is evaluated within the states of the program. -/
theorem tracks_place (e : Expr) (he : S.Trusted e) : Tracks S.holds (S.place e) (S.place e) := by
  induction e using Expr.induction_on_children with
  | step e ih =>
  cases e with
  | field =>
    exact ((tracking _).evalReceiver (he.option (List.Subset.refl _))).bind fun _ => tracks_pure _
  | index =>
    have hbase := (he.child (.head _)).node.keeps
    have hpos := (he.child (.tail _ (.head _))).node.keeps
    exact Tracks.bind ⟨.refl _, hbase⟩ fun _ => Tracks.bind ⟨.refl _, hpos⟩ fun _ => tracks_pure _
  | paren loc type inner | annot loc type name inner =>
    exact ih inner (.head _) (he.child (.head _))
  | _ => exact tracks_pure _

/-- What is called is evaluated within the states of the program. -/
theorem tracks_callee (he : S.Trusted e) : Tracks S.holds (S.callee e) (S.callee e) := by
  unfold callee evalCallee
  split
  · exact ((tracking _).evalReceiver (he.option (List.Subset.refl _))).bind fun _ => tracks_pure _
  · exact tracks_pure _
  · exact Tracks.bind ⟨.refl _, he.node.keeps⟩ fun _ => tracks_pure _

theorem Kept.refl (e : Expr) : S.Kept e e := fun he =>
  ⟨he, id, ⟨.refl _, he.node.keeps⟩, tracks_place e he, tracks_callee he⟩

theorem Kept.trans {c : Expr} (hab : S.Kept a b) (hbc : S.Kept b c) : S.Kept a c := by
  intro ha
  obtain ⟨hb, hab⟩ := hab ha
  obtain ⟨hc, hbc⟩ := hbc hb
  exact ⟨hc, hab.pure ∘ hbc.pure, hab.value.trans hbc.value, hab.place.trans hbc.place,
    hab.callee.trans hbc.callee⟩

/-- A field of a kept receiver is kept as a place too. -/
theorem kept_field {ref : MemberRef} {r r' : Option Expr} (h : Option.Rel S.Kept r r') :
    S.Kept (.field loc type ref r) (.field loc type ref r') := by
  have hreceiver (ha : S.Trusted (.field loc type ref r)) :=
    (tracking _).evalReceiver (tracks_option h fun c hc => ha.child hc)
  refine kept_of_children (forall₂_toList h) rfl rfl id (fun ha => ?_) (fun ha => ?_)
    (fun ha => (hreceiver ha).bind fun _ => tracks_pure _)
    fun ha => (hreceiver ha).bind fun _ => tracks_pure _
  · cases h with
    | none => exact id
    | some h => exact (h (ha.child (.head _))).2.pure
  · change AgreeOn _ (ite _ _ _) (ite _ _ _)
    split
    · exact .refl _
    · exact (hreceiver ha).bind_agree fun _ => .refl _

theorem kept_index {x x' p p' : Expr} (hx : S.Kept x x') (hp : S.Kept p p') :
    S.Kept (.index loc type x p) (.index loc type x' p') := by
  have hbase (ha : S.Trusted (.index loc type x p)) := (hx (ha.child (.head _))).2
  have hpos (ha : S.Trusted (.index loc type x p)) := (hp (ha.child (.tail _ (.head _)))).2
  have hvalue (ha : S.Trusted (.index loc type x p)) :
      AgreeOn S.holds (S.value (.index loc type x p)) (S.value (.index loc type x' p')) :=
    (hbase ha).value.bind_agree fun _ => (hpos ha).value.bind_agree fun _ => .refl _
  refine kept_of_children (.cons hx (.cons hp .nil)) rfl rfl id (fun ha h => ?_) hvalue
    (fun ha => ?_) fun ha => Tracks.bind ⟨hvalue ha, ha.node.keeps⟩ fun _ => tracks_pure _
  · simp only [isPure, Bool.and_eq_true] at h ⊢
    exact h.imp (hbase ha).pure (hpos ha).pure
  · exact (hbase ha).value.bind fun _ => (hpos ha).value.bind fun _ => tracks_pure _

theorem kept_switch {s s' : Expr} {cs cs' : List (Case Expr)} {d d' : Option Expr}
    (hs : S.Kept s s') (hc : List.Forall₂ (fun c c' => List.Forall₂ S.Kept c.values c'.values ∧
      Option.Rel S.Kept c.body c'.body) cs cs') (hd : Option.Rel S.Kept d d') :
    S.Kept (.switch loc type s cs d) (.switch loc type s' cs' d') := by
  refine kept_impure (.cons hs (rel_append (forall₂_cases hc) (forall₂_toList hd)))
    rfl rfl rfl rfl rfl rfl id rfl fun ha => ?_
  have hcases := forall₂_of_mem hc fun c hmem c' h =>
    have hbelow (x : Expr) (hx : x ∈ c.values ++ c.body.toList) : S.Trusted x :=
      ha.child (.tail _ (mem_append_left _ (mem_flatMap.2 ⟨c, hmem, hx⟩)))
    And.intro (tracks_list h.1 fun x hx => hbelow x (mem_append_left _ hx))
      (tracks_option h.2 fun x hx => hbelow x (mem_append_right _ hx))
  have hdefault := (tracking _).evalPart (tracks_option hd fun x hx =>
    ha.child (.tail _ (mem_append_right _ hx)))
  exact (hs.tracks (ha.child (.head _))).bind_agree fun v =>
    ((tracking _).select v hdefault ((tracking _).evalCases hcases)).agree

theorem kept_tryCatch {x x' : Option Expr} {hs hs' : List (Handler Expr)}
    (hx : Option.Rel S.Kept x x')
    (hh : List.Forall₂ (fun h h' => h.var = h'.var ∧ Option.Rel S.Kept h.body h'.body) hs hs') :
    S.Kept (.tryCatch loc type x hs) (.tryCatch loc type x' hs') := by
  refine kept_impure (rel_append (forall₂_toList hx) (forall₂_filterMap (fun h => h.2) hh))
    rfl rfl rfl rfl rfl rfl (fun hbinds => ?_) rfl fun ha => ?_
  · have hvars : hs.map Handler.var = hs'.map Handler.var :=
      map_eq_of_forall₂ hh fun _ _ h => h.1
    exact fun v hv => hbinds v (hvars ▸ hv)
  · have hhandlers := forall₂_of_mem hh fun h hmem h' hrel => And.intro hrel.1 (And.intro
      (ha.node.binds h.var (mem_map_of_mem hmem)).catches (tracks_option hrel.2 fun c hc =>
        ha.child (mem_append_right _ (mem_filterMap.2 ⟨h, hmem, Option.mem_toList.1 hc⟩))))
    have hbody := (tracking _).evalPart (tracks_option hx fun c hc =>
      ha.child (mem_append_left _ hc))
    exact (hbody.handle fun v => (tracking _).rescue v ((tracking _).evalHandlers hhandlers)).agree

/-- Every kind of node passes `Kept` from its parts to itself. -/
theorem kept_congruent : Congruent S.Kept where
  refl := .refl
  trans := .trans
  field := kept_field
  index := kept_index
  paren h := kept_wrapper h rfl rfl rfl rfl rfl rfl rfl rfl rfl rfl id id
  annot h := kept_wrapper h rfl rfl rfl rfl rfl rfl rfl rfl rfl rfl id id
  object h := by
    refine kept_impure (forall₂_map_left_iff.2 (forall₂_map_right_iff.2
      (h.imp fun _ _ hf => hf.2))) rfl rfl rfl rfl rfl rfl id rfl fun ha => ?_
    have hfields := (tracking _).evalFields (forall₂_map_left_iff.2 (forall₂_map_right_iff.2
      (forall₂_of_mem h fun f hf _ hrel => hrel.2.tracks (ha.child (mem_map_of_mem hf)))))
    have hnames := map_eq_of_forall₂ h fun _ _ hf => hf.1
    refine hfields.bind_agree fun vs => ?_
    rw [hnames]
    exact .refl _
  array h := kept_impure h rfl rfl rfl rfl rfl rfl id rfl fun ha =>
    ((tracking _).evalList (tracks_list h fun c hc => ha.child hc)).bind_agree fun _ => .refl _
  call hc ha := by
    refine kept_impure (.cons hc ha) rfl rfl rfl rfl rfl rfl id rfl fun h => ?_
    change AgreeOn _ (eval _ _ _) (eval _ _ _)
    rw [eval_call, eval_call]
    have hargs := (tracking _).evalList (tracks_list ha fun c hc => h.child (.tail _ hc))
    exact (hc (h.child (.head _))).2.callee.bind_agree fun _ => hargs.bind_agree fun _ => .refl _
  new h := kept_impure h rfl rfl rfl rfl rfl rfl id rfl fun ha =>
    ((tracking _).evalList (tracks_list h fun c hc => ha.child hc)).bind_agree fun _ => .refl _
  binary ha hb := by
    refine kept_plain (.cons ha (.cons hb .nil)) rfl rfl rfl rfl rfl rfl id (fun h hp => ?_)
      fun h => ?_
    · have hlhs := (ha (h.child (.head _))).2
      have hrhs := (hb (h.child (.tail _ (.head _)))).2
      simp only [isPure, Bool.and_eq_true] at hp ⊢
      exact ⟨⟨hp.1.1, hlhs.pure hp.1.2⟩, hrhs.pure hp.2⟩
    · have hlhs := (ha (h.child (.head _))).2
      exact agreeOn_binary _ hlhs.value hlhs.place (hb.tracks (h.child (.tail _ (.head _))))
  unary ha := by
    refine kept_plain (.cons ha .nil) rfl rfl rfl rfl rfl rfl id (fun h hp => ?_) fun h => ?_
    · simp only [isPure, Bool.and_eq_true] at hp ⊢
      exact hp.imp_right (ha (h.child (.head _))).2.pure
    · have hoperand := (ha (h.child (.head _))).2
      exact agreeOn_unary _ _ hoperand.value hoperand.place
  function _ _ := fun ha => absurd ha.node.noFunction.symm Bool.false_ne_true
  varDecl h := kept_impure (forall₂_toList h) rfl rfl rfl rfl rfl rfl id rfl
    fun ha => ((tracking _).evalPart (tracks_option h fun c hc => ha.child hc)).bind_agree
      fun _ => .refl _
  block h := kept_impure h rfl rfl rfl rfl rfl rfl id rfl fun ha =>
    ((tracking _).evalSeq (tracks_list h fun c hc => ha.child hc) _).agree
  forIn hi hb := by
    refine kept_impure (.cons hi (forall₂_toList hb)) rfl rfl rfl rfl rfl rfl id rfl fun ha => ?_
    have hbody := (tracking _).evalPart (tracks_option hb fun c hc => ha.child (.tail _ hc))
    exact (hi.tracks (ha.child (.head _))).bind_agree fun it =>
      ((tracking _).loop (Iterates.advance ha.node.binds it hbody) _).agree
  ite hc ht hf := by
    refine kept_impure (.cons hc (rel_append (forall₂_toList ht) (forall₂_toList hf)))
      rfl rfl rfl rfl rfl rfl id rfl
      fun ha => (hc.tracks (ha.child (.head _))).bind_agree fun v => ?_
    split
    · exact ((tracking _).evalPart (tracks_option ht fun c hc =>
        ha.child (.tail _ (mem_append_left _ hc)))).agree
    · exact ((tracking _).evalPart (tracks_option hf fun c hc =>
        ha.child (.tail _ (mem_append_right _ hc)))).agree
  loop {loc test c c' b b'} hc hb := by
    cases test with
    | before =>
      refine kept_impure (.cons hc (forall₂_toList hb)) rfl rfl rfl rfl rfl rfl id rfl fun ha => ?_
      have hbody := (tracking _).evalPart (tracks_option hb fun c hc => ha.child (.tail _ hc))
      exact ((tracking _).loop ((tracking _).testThen (hc.tracks (ha.child (.head _))) hbody) _).agree
    | after =>
      refine kept_impure (.cons hc (forall₂_toList hb)) rfl rfl rfl rfl rfl rfl id rfl fun ha => ?_
      have hbody := (tracking _).evalPart (tracks_option hb fun c hc => ha.child (.tail _ hc))
      exact ((tracking _).loopAfter (hc.tracks (ha.child (.head _))) hbody _).agree
  switch := kept_switch
  ret h := kept_impure (forall₂_toList h) rfl rfl rfl rfl rfl rfl id rfl
    fun ha => ((tracking _).evalPart (tracks_option h fun c hc => ha.child hc)).bind_agree
      fun _ => .refl _
  throw h := kept_impure (.cons h .nil) rfl rfl rfl rfl rfl rfl id rfl
    fun ha => (h.tracks (ha.child (.head _))).bind_agree fun _ => .refl _
  cast {loc type checked i i'} h := by
    cases checked with
    | none =>
      exact kept_plain (.cons h .nil) rfl rfl rfl rfl rfl rfl id
        (fun ha => (h (ha.child (.head _))).2.pure) fun ha => (h.tracks (ha.child (.head _))).agree
    | some =>
      exact kept_impure (.cons h .nil) rfl rfl rfl rfl rfl rfl id rfl
        fun ha => (h.tracks (ha.child (.head _))).bind_agree fun _ => .refl _
  tryCatch := kept_tryCatch
  enumParam h := kept_plain (.cons h .nil) rfl rfl rfl rfl rfl rfl id
    (fun ha => (h (ha.child (.head _))).2.pure)
    fun ha => (h.tracks (ha.child (.head _))).bind_agree fun _ => .refl _
  enumIndex h := kept_plain (.cons h .nil) rfl rfl rfl rfl rfl rfl id
    (fun ha => (h (ha.child (.head _))).2.pure)
    fun ha => (h.tracks (ha.child (.head _))).bind_agree fun _ => .refl _

/-- A wrapper may take the type of its inner node, which is honest too. -/
theorem kept_rewrapped (ha : a.children = [i]) (hb : b.children = [i]) (htype : b.type = i.type)
    (hfun : b.isFunction = a.isFunction) (hbinds : S.Binds a → S.Binds b)
    (hva : S.value a = S.value i) (hvb : S.value b = S.value i) (hplace : S.place b = S.place a)
    (hcallee : S.callee b = S.callee a) (hpa : a.isPure = i.isPure) (hpb : b.isPure = i.isPure) :
    S.Kept a b := by
  intro h
  have hinner : S.Trusted i := h.child (ha ▸ mem_singleton.2 rfl)
  have hnode : S.Honest b := by
    refine ⟨hfun.trans h.node.noFunction, hvb ▸ hinner.node.keeps, hbinds h.node.binds, ?_⟩
    rw [hpb, htype, hvb]
    exact hinner.node.notNull
  have hbelow : ∀ c ∈ b.children, S.Trusted c := by
    rw [hb]
    exact fun c hc => mem_singleton.1 hc ▸ hinner
  refine ⟨throughout_iff.2 ⟨hnode, hbelow⟩, fun hp => hpa.trans (hpb.symm.trans hp), ?_, ?_, ?_⟩
  · rw [hva, hvb]
    exact ⟨.refl _, hinner.node.keeps⟩
  · rw [hplace]
    exact tracks_place a h
  · rw [hcallee]
    exact tracks_callee h

/-- Bringing the type of a node up to date changes nothing that it does. -/
theorem kept_retype (e : Expr) : S.Kept e e.retype := by
  cases e with
  | paren loc type inner =>
    exact kept_rewrapped (b := mkParen loc inner) rfl rfl rfl rfl id rfl rfl rfl rfl rfl rfl
  | annot loc type name inner =>
    exact kept_rewrapped (b := mkAnnot loc name inner) rfl rfl rfl rfl id rfl rfl rfl rfl rfl rfl
  | _ => exact .refl _

/-! ## Comparisons -/

/-- The literal null, behind whatever it stands, is null. -/
theorem value_of_isNull : ∀ e : Expr, e.isNull = true → S.value e = pure S.machine.null
  | .paren _ _ inner, h | .annot _ _ _ inner, h | .cast _ _ none inner, h =>
    value_of_isNull inner h
  | .const _ _ .null, _ => rfl

/-- What can be seen to be null or not evaluates so, and changes
nothing. -/
theorem value_of_seen (he : S.Trusted e) (h : Seen S.admits e) {σ : State S.machine}
    (hσ : S.holds σ) :
    ∃ v, S.value e σ = some (.ok v, σ) ∧ S.machine.isNull v = e.isNull := by
  cases hnull : e.isNull with
  | true =>
    refine ⟨S.machine.null, ?_, (S.machine.isNull_iff _).2 rfl⟩
    rw [value_of_isNull e hnull]
    rfl
  | false =>
    obtain ⟨v, hv⟩ := eval_of_isPure σ e h.pure
    obtain ⟨hknown, hrejected⟩ := h.type hnull
    have hne : v ≠ S.machine.null := he.node.notNull h.pure hknown hrejected σ hσ v σ hv
    exact ⟨v, hv, Bool.eq_false_iff.2 fun h => hne ((S.machine.isNull_iff v).1 h)⟩

/-- A comparison with null tells whether both operands are null. -/
theorem binary_comparison (hM : S.machine.ComparesNull) (equal : Bool)
    {v w : S.machine.Value} (h : (S.machine.isNull v || S.machine.isNull w) = true) :
    S.machine.binary (comparison equal) v w =
      S.machine.const (.bool (equal == (S.machine.isNull v && S.machine.isNull w))) := by
  rw [Bool.or_eq_true, S.machine.isNull_iff, S.machine.isNull_iff] at h
  cases equal with
  | true => exact (hM.eq_of_null h).trans (by rw [Bool.true_beq])
  | false => exact (hM.ne_of_null h).trans (by rw [Bool.false_beq])

/-- A comparison evaluates its operands in order. -/
theorem value_comparison (equal : Bool) (lhs rhs : Expr) :
    S.value (.binary loc type (comparison equal) lhs rhs) = (do
      let v ← S.value lhs
      let w ← S.value rhs
      return S.machine.binary (comparison equal) v w) := by
  cases equal <;> rfl

/-- The value of a decided comparison is its outcome. -/
theorem agreeOn_of_decide? {equal value : Bool} {lhs rhs : Expr} (hM : S.machine.ComparesNull)
    (h : S.Trusted (.binary loc type (comparison equal) lhs rhs))
    (hdecide : decide? S.admits equal lhs rhs = some value) :
    AgreeOn S.holds (S.value (.binary loc type (comparison equal) lhs rhs))
      (S.value (.boolLit loc value)) := by
  intro σ hσ
  obtain ⟨hlhs, hrhs, hnull, rfl⟩ := seen_of_decide? hdecide
  obtain ⟨v, hv, hvnull⟩ := value_of_seen (h.child (.head _)) hlhs hσ
  obtain ⟨w, hw, hwnull⟩ := value_of_seen (h.child (.tail _ (.head _))) hrhs hσ
  rw [← hvnull, ← hwnull] at hnull ⊢
  rw [value_comparison, bind_of_ok hv, bind_of_ok hw, binary_comparison hM equal hnull]
  rfl

theorem trusted_boolLit (hM : S.machine.ComparesNull) (loc : Loc) (value : Bool) :
    S.Trusted (.boolLit loc value) := by
  refine throughout_iff.2 ⟨⟨rfl, (tracks_pure _).keeps, trivial, ?_⟩, fun c hc => nomatch hc⟩
  intro _ _ _ σ _ v σ' hv
  cases hv
  exact hM.bool_ne_null value

/-- A decided comparison may be replaced by its outcome. -/
theorem kept_decided (hM : S.machine.ComparesNull) (e : Expr) : S.Kept e (decided S.admits e) := by
  unfold decided
  cases hout : outcome? S.admits e with
  | none => exact .refl e
  | some value =>
    obtain ⟨loc, type, equal, lhs, rhs, rfl, hdecide⟩ := decide?_of_outcome? hout
    intro h
    obtain ⟨hlhs, hrhs, -⟩ := seen_of_decide? hdecide
    have hvalue := agreeOn_of_decide? hM h hdecide
    have htracks : Tracks S.holds (S.value _) (S.value _) := ⟨hvalue, h.node.keeps⟩
    refine ⟨trusted_boolLit hM loc value, fun _ => ?_, htracks, tracks_pure _,
      htracks.bind fun _ => tracks_pure _⟩
    rw [isPure, hlhs.pure, hrhs.pure]
    cases equal <;> rfl

end Setting

/-- **Folding preserves meaning.** Let every part of a tree without
function literals be honest in the states that the program comes to; if
those are all states, this says that what has a type which does not admit
null never evaluates to null. From each such state the folded tree ends
in the same way, with the same value, events and state. It is the tree,
with the types of its wrappers up to date, with comparisons for equality
replaced by truth values, where the operands only read. -/
theorem folding_preserves_meaning (S : Setting) (hM : S.machine.ComparesNull) (e : Expr)
    (he : S.Trusted e) :
    (∀ σ, S.holds σ → eval S.machine S.rounds (folded S.admits e) σ = eval S.machine S.rounds e σ) ∧
      Derives Decides e.retyped (folded S.admits e) := by
  refine ⟨fun σ hσ => ?_, derives_folded S.admits e⟩
  have hretyped : S.Kept e e.retyped := Setting.kept_congruent.rebuild Setting.kept_retype e
  have hfolded : S.Kept e.retyped (folded S.admits e) := by
    rw [folded_eq_rebuild]
    exact Setting.kept_congruent.rebuild (Setting.kept_decided hM) e.retyped
  exact ((hretyped.trans hfolded he).2.value.agree σ hσ).symm

theorem decide_bool_eq_true (b : Bool) : decide (Const.bool b = .bool true) = b := by
  cases b <;> rfl

theorem decide_eq_null_iff (v : Const) : decide (v = .null) = true ↔ v = .null :=
  decide_eq_true_iff

/-- A machine whose values are the constants. Everything that happens
yields zero, and the operators compare. -/
def comparing : Machine where
  Value := Const
  World := Unit
  const := id
  typeValue _ := .null
  closure _ := .null
  ctor _ := .null
  ident _ _ := .null
  member _ _ _ := .null
  element _ _ _ := .null
  enumParam _ _ _ _ := .null
  enumIndex _ _ := .null
  unary _ v := .bool (v ≠ .bool true)
  binary op v w := .bool (if op = .ne then !decide (v = w) else decide (v = w))
  truth v := v = .bool true
  isNull v := v = .null
  catches _ _ := true
  perform _ w := (.ok (.int 0), w)
  setMember _ _ _ w := w
  setElement _ _ _ w := w
  truth_bool := decide_bool_eq_true
  truth_not _ := (decide_bool_eq_true _).trans decide_not
  isNull_iff := decide_eq_null_iff
  truth_eq_null _ := decide_bool_eq_true _

theorem comparing_comparesNull : comparing.ComparesNull := by
  have hequal {v w : Const} (h : v = .null ∨ w = .null) :
      decide (v = w) = (decide (v = .null) && decide (w = .null)) := by
    rcases h with rfl | rfl <;> simp [eq_comm]
  exact ⟨fun h => congrArg Const.bool (hequal h),
    fun h => congrArg (fun b => Const.bool !b) (hequal h), fun _ => nofun⟩

/-- `while (null != (x)) { y = x; break; }`, with integers `x` and `y`. -/
def copyLoop : Expr :=
  let x : Expr := .local {} ⟨1, "x", .int⟩
  let y : Expr := .local {} ⟨2, "y", .int⟩
  .loop {} .before (.mkBinary {} .ne (.nullLit {}) (.mkParen {} x))
    (some (.statements {} [.mkAssign {} y x, .brk {}]))

def integers : Setting where
  machine := comparing
  rounds := 4
  admits := .builtin true
  holds σ := σ.locals 1 ≠ .null ∧ σ.locals 2 ≠ .null

/-- A node that does more than read has to keep the states only. -/
theorem honest_of_impure {S : Setting} (hfun : e.isFunction = false)
    (hkeeps : Maintains S.holds (S.value e)) (hbinds : S.Binds e) (himpure : e.isPure = false) :
    S.Honest e := ⟨hfun, hkeeps, hbinds, fun h => absurd (himpure.symm.trans h) Bool.false_ne_true⟩

/-- A node that reads and is not null honours its type. -/
theorem honest_of_read {S : Setting} (hfun : e.isFunction = false) (hbinds : S.Binds e)
    (hvalue : ∀ σ, ∃ v, S.value e σ = some (.ok v, σ) ∧
      (S.holds σ → S.admits e.type = false → v ≠ S.machine.null)) : S.Honest e where
  noFunction := hfun
  keeps := (tracks_of_fixed fun σ => have ⟨_, hv, _⟩ := hvalue σ; ⟨_, hv⟩).keeps
  binds := hbinds
  notNull _ _ hrejected σ hσ v σ' hv := by
    obtain ⟨w, hw, hne⟩ := hvalue σ
    cases hw.symm.trans hv
    exact hne hσ hrejected

/-- Every node of the loop keeps the two locals apart from null. -/
theorem trusted_copyLoop : integers.Trusted copyLoop := by
  have hx : integers.Trusted (.local {} ⟨1, "x", .int⟩) :=
    throughout_iff.2 ⟨honest_of_read rfl trivial fun σ => ⟨_, rfl, fun hσ _ => hσ.1⟩, nofun⟩
  have hy : integers.Trusted (.local {} ⟨2, "y", .int⟩) :=
    throughout_iff.2 ⟨honest_of_read rfl trivial fun σ => ⟨_, rfl, fun hσ _ => hσ.2⟩, nofun⟩
  have hcond : integers.Trusted (.mkBinary {} .ne (.nullLit {}) (.mkParen {}
      (.local {} ⟨1, "x", .int⟩))) := by
    refine throughout_iff.2 ⟨honest_of_read rfl trivial fun σ => ⟨_, rfl, fun _ _ => nofun⟩,
      forall_mem_cons.2 ⟨?_, forall_mem_singleton.2 ?_⟩⟩
    · exact throughout_iff.2 ⟨honest_of_read rfl trivial
        fun σ => ⟨_, rfl, fun _ h => nomatch h⟩, nofun⟩
    · exact throughout_iff.2 ⟨honest_of_read rfl trivial
        fun σ => ⟨_, rfl, fun hσ _ => hσ.1⟩, forall_mem_singleton.2 hx⟩
  -- Only the assignment changes the state, and it stores what `x` holds.
  have hstore : integers.Trusted (.mkAssign {} (.local {} ⟨2, "y", .int⟩)
      (.local {} ⟨1, "x", .int⟩)) := by
    refine throughout_iff.2 ⟨honest_of_impure rfl ?_ trivial rfl,
      forall_mem_cons.2 ⟨hy, forall_mem_singleton.2 hx⟩⟩
    intro σ hσ r σ' hr
    cases hr
    exact ⟨hσ.1, hσ.1⟩
  have hbrk : integers.Trusted (.brk {}) :=
    throughout_iff.2 ⟨honest_of_impure rfl (tracks_jump _).keeps trivial rfl, nofun⟩
  have hbody : integers.Trusted (.statements {} [.mkAssign {} (.local {} ⟨2, "y", .int⟩)
      (.local {} ⟨1, "x", .int⟩), .brk {}]) :=
    throughout_iff.2 ⟨honest_of_impure rfl (hstore.node.keeps.bind fun _ =>
      hbrk.node.keeps.bind fun _ => (tracks_pure _).keeps) trivial rfl,
      forall_mem_cons.2 ⟨hstore, forall_mem_singleton.2 hbrk⟩⟩
  have hround := (tracking _).testThen ⟨.refl _, hcond.node.keeps⟩ ⟨.refl _, hbody.node.keeps⟩
  have hloop := (tracking _).loop hround 4
  exact throughout_iff.2 ⟨honest_of_impure rfl hloop.keeps trivial rfl,
    forall_mem_cons.2 ⟨hcond, forall_mem_singleton.2 hbody⟩⟩

/-- A loop with a comparison that is decided because of a type. -/
theorem folding_preserves_meaning_copyLoop : comparing.ComparesNull ∧ integers.Trusted copyLoop ∧
    (∀ σ, integers.holds σ → eval comparing 4 (folded (.builtin true) copyLoop) σ =
      eval comparing 4 copyLoop σ) ∧
    Derives Decides copyLoop.retyped (folded (.builtin true) copyLoop) :=
  ⟨comparing_comparesNull, trusted_copyLoop,
    folding_preserves_meaning integers comparing_comparesNull copyLoop trusted_copyLoop⟩

end Nulls

end LuaBackend
