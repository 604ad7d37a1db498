import LuaBackend.Proofs.Normalize.Scoping.Temporaries
import LuaBackend.Proofs.Normalize.StoredValue
import LuaBackend.Proofs.Semantics.Frame

/-!
# The order in which a target is taken

An assignment takes the parts of its target from left to right, then its
right side, and then stores. Parts that can be observed are moved into
temporaries where the operator or the right side asks for it, one by one:
a position that is moved overtakes a base that stays. So `a.b[f()] = g()`
calls `f` and then reads `a.b`.

`takenPlace` is the place that normalized statements store into. It is the
place that the parts name in their order exactly if the base has the same
value after the position as before.
-/

namespace LuaBackend

open Exec UInt32

def Scope.program : Scope := fun y => y < tempBase

namespace Exec

variable {M : Machine}
variable {op : BinaryOp}

def assignTo (op : BinaryOp) (place : Exec M (Place M.Value)) (rhs : Exec M M.Value) :
    Exec M Unit := do
  let _ ← binary op (pure M.null) place rhs

theorem assignTo_eq (hop : op.isAssignment = true) (place : Exec M (Place M.Value))
    (rhs : Exec M M.Value) :
    assignTo op place rhs = (do let p ← place; assignTo op (pure p) rhs) := by
  cases op with
  | assign | compound =>
    simp only [assignTo, binary, bind_assoc]
    rfl
  | _ => cases hop

/-- An assignment needs its target as a place only. -/
theorem binary_eq_assignTo (hop : op.isAssignment = true) (lhs : Exec M M.Value)
    (place : Exec M (Place M.Value)) (rhs : Exec M M.Value) :
    (do let _ ← binary op lhs place rhs) = assignTo op place rhs := by
  cases op with
  | assign | compound => rfl
  | _ => cases hop

end Exec

namespace Normalize

open Meaning Simulation

variable {M : Machine} {rounds : Nat}
variable {e v : Expr} {op : BinaryOp}
variable {ref : MemberRef} {r : Expr}
variable {s : TempSupply} {t base position : Expr} {loc : Loc} {type : Ty} {how : Spill}

def takenPlace (M : Machine) (rounds : Nat) (how : Spill) : Expr → Exec M (Place M.Value)
  | .paren _ _ inner => takenPlace M rounds how inner
  | .annot _ _ _ inner => takenPlace M rounds how inner
  | .index loc type base position =>
    if base.isPure && how.needs position then do
      let p ← eval M rounds position
      let b ← eval M rounds base
      return .element b p
    else evalPlace M rounds (.index loc type base position)
  | t => evalPlace M rounds t

/-- If the position overtakes the base, the base has the same value after it. -/
def BaseKept (M : Machine) (rounds : Nat) (how : Spill) (t : Expr) (σ : State M) : Prop :=
  ∀ loc type base position, t.bare = .index loc type base position →
    base.isPure = true → how.needs position = true →
    ∀ p σ', eval M rounds position σ = some (.ok p, σ') →
      (eval M rounds base σ').map Prod.fst = (eval M rounds base σ).map Prod.fst

/-- An overtaken base names the same place exactly if it keeps its value. -/
theorem overtaking_eq_iff (hb : base.isPure = true) (σ : State M) :
    (do let p ← eval M rounds position
        let b ← eval M rounds base
        return Place.element b p : Exec M (Place M.Value)) σ =
      (do let b ← eval M rounds base
          let p ← eval M rounds position
          return Place.element b p : Exec M (Place M.Value)) σ ↔
    ∀ p σ', eval M rounds position σ = some (.ok p, σ') →
      (eval M rounds base σ').map Prod.fst = (eval M rounds base σ).map Prod.fst := by
  obtain ⟨a, ha⟩ := @eval_of_isPure M rounds σ base hb
  rw [bind_of_ok ha]
  rcases cases (eval M rounds position) σ with h | ⟨p, σ', h⟩ | ⟨j, σ', h⟩
  · rw [bind_of_none h, bind_of_none h]
    simp [h]
  · obtain ⟨a', ha'⟩ := @eval_of_isPure M rounds σ' base hb
    rw [bind_of_ok h, bind_of_ok h, bind_of_ok ha', pure_apply, pure_apply]
    simp [h, ha, ha']
  · rw [bind_of_error h, bind_of_error h]
    simp [h]

/-- The place is that of the tree exactly if the base is kept. -/
theorem takenPlace_eq_iff (how : Spill) (σ : State M) (t : Expr) :
    takenPlace M rounds how t σ = evalPlace M rounds t σ ↔ BaseKept M rounds how t σ := by
  fun_induction takenPlace M rounds how t with
  | case1 loc type inner ih => exact ih
  | case2 loc type name inner ih => exact ih
  | case3 loc type base position hmoved =>
    obtain ⟨hb, hp⟩ := Bool.and_eq_true_iff.1 hmoved
    rw [evalPlace]
    refine (overtaking_eq_iff hb σ).trans ⟨fun h => ?_, fun h => h loc type base position rfl hb hp⟩
    rintro _ _ _ _ ⟨⟩ - -
    exact h
  | case4 loc type base position hstays =>
    refine iff_of_true rfl ?_
    rintro _ _ _ _ ⟨⟩ hb hp
    exact absurd (Bool.and_eq_true_iff.2 ⟨hb, hp⟩) hstays
  | case5 t hparen hannot hindex =>
    refine iff_of_true rfl fun loc type base position hbare => ?_
    cases t with
    | paren => exact (hparen _ _ _ rfl).elim
    | annot => exact (hannot _ _ _ _ rfl).elim
    | _ => exact (hindex _ _ _ _ hbare).elim

section Moving

variable {Γ : Scope} {I : Known M} {σ τ : State M}

theorem alikeIn_refl (σ : State M) : AlikeIn Γ σ σ := ⟨rfl, rfl, fun _ _ => rfl, trivial⟩

theorem alikeIn_of_match (h : Match Γ I σ τ) : AlikeIn Γ σ τ := h.known_mono trivial

/-- A moved part: the temporary then holds its value. -/
theorem agree_moved {t : Var} (hm : Match Γ I σ τ) (hI : Rests I fun y => Γ y = false ∧ y ≠ t.id)
    (ht : Γ t.id = false) (he : Within Γ (eval M rounds e)) (hv : eval M rounds v = eval M rounds e)
    :
    Agree (eval M rounds e σ) (run M rounds [.varDecl loc t (some v)]) τ
      (fun a _ => Match Γ fun f => I f ∧ f t.id = a) (AlikeIn Γ) := by
  refine steps_decl ?_
  rw [hv]
  have hrun := he I (hI.mono fun _ h => h.1) σ τ hm
  refine Steps.mono (hrun.exit_mono fun _ _ => alikeIn_of_match) ?_
  rintro _ τ' ⟨a, σ', hσ, -, rfl, hm'⟩
  have hset := hm'.set_target (v := a) hI ht fun h => h.2 rfl
  exact ⟨a, σ', hσ, hset.known_mono ⟨hset.known, State.locals_set_self ..⟩⟩

/-- A part that stays, evaluated after others have been moved. -/
theorem agree_stays (hm : Match Γ I σ τ) (hI : Rests I fun y => Γ y = false)
    (he : Within Γ (eval M rounds e)) (hv : eval M rounds v = eval M rounds e) :
    Agree (eval M rounds e σ) (eval M rounds v) τ (Same Γ I) (AlikeIn Γ) := by
  rw [hv]
  exact (within_iff.1 he I hI σ τ hm).exit_mono fun _ _ => alikeIn_of_match

end Moving

/-! ## Taking a target -/

def TakesPlace (M : Machine) (rounds : Nat) (Γ : Scope) (place : Exec M (Place M.Value))
    (h : Hoisted) : Prop :=
  ∀ σ τ : State M, AlikeIn Γ σ τ →
    Agree (place σ) (do run M rounds h.stmts; evalPlace M rounds h.value) τ
      (fun p q σ' τ' => InScope Γ p ∧ Same Γ (fun _ => True) p q σ' τ') (AlikeIn Γ)

section Taking

variable {Γ : Scope} {loc : Loc} {type : Ty}

theorem takes_unmoved {h : Hoisted} (ht : TreeWithin M rounds Γ t) (hstmts : h.stmts = [])
    (hplace : evalPlace M rounds h.value = evalPlace M rounds t) :
    TakesPlace M rounds Γ (evalPlace M rounds t) h := by
  intro σ τ hm
  rw [hstmts, hplace]
  exact ht.place _ (fun _ _ _ _ => trivial) σ τ hm

abbrev Taken (Γ : Scope) (r : Result M (Place M.Value)) : Place M.Value → State M → Prop :=
  Ends r fun p q σ' τ' => InScope Γ p ∧ Same Γ (fun _ => True) p q σ' τ'

theorem steps_taken {r : Result M (Place M.Value)} {y : Exec M (Place M.Value)} {σ τ : State M}
    {p : Place M.Value} (hp : ∀ y, p ≠ .local y) (hr : r = some (.ok p, σ))
    (hy : y τ = some (.ok p, τ)) (hm : AlikeIn Γ σ τ) : Steps r y τ (Taken Γ r) (AlikeIn Γ) :=
  steps_of_ok hy ⟨p, σ, hr, fun y h => absurd h (hp y), rfl, hm⟩

theorem takes_moved_receiver {t : Var} (ht : Γ t.id = false) (hr : Within Γ (eval M rounds r))
    (hv : eval M rounds v = eval M rounds r) :
    TakesPlace M rounds Γ (evalPlace M rounds (.field loc type ref (some r)))
      ⟨[.varDecl v.loc t (some v)], .field loc type ref (some (.local v.loc t))⟩ := by
  intro σ τ hm
  rw [evalPlace, evalReceiver, bind_assoc]
  refine (agree_moved hm rests_true ht hr hv).bind (Q := Taken Γ) ?_
  rintro a _ σ' τ' hm'
  refine steps_taken (p := .member ref (some a)) (fun _ h => by cases h) rfl ?_ (alikeIn_of_match hm')
  change some (Except.ok (Place.member ref (some (τ'.locals t.id))), τ') = _
  rw [hm'.known.2]

section Index

variable {base position b p : Expr} {t u : Var}
variable (hbase : Within Γ (eval M rounds base)) (hposition : Within Γ (eval M rounds position))
variable (hb : eval M rounds b = eval M rounds base) (hp : eval M rounds p = eval M rounds position)

include hbase hposition hb hp

/-- Both parts are moved, in their order. -/
theorem takes_moved_parts (ht : Γ t.id = false) (hu : Γ u.id = false) (hne : t.id ≠ u.id) :
    TakesPlace M rounds Γ (evalPlace M rounds (.index loc type base position))
      ⟨[.varDecl b.loc t (some b), .varDecl p.loc u (some p)],
        .index loc type (.local b.loc t) (.local p.loc u)⟩ := by
  intro σ τ hm
  rw [evalPlace]
  change Steps _ (do
    run M rounds ([.varDecl b.loc t (some b)] ++ [.varDecl p.loc u (some p)])
    evalPlace M rounds (.index loc type (.local b.loc t) (.local p.loc u))) τ (Taken Γ _) _
  rw [run_append, bind_assoc]
  refine (agree_moved hm rests_true ht hbase hb).bind (Q := Taken Γ) ?_
  rintro a _ σ₁ τ₁ hm₁
  have hknown : Rests (fun f : UInt32 → M.Value => True ∧ f t.id = a)
      fun y => Γ y = false ∧ y ≠ u.id := rests_true.and (rests_local ⟨ht, hne⟩)
  refine (agree_moved hm₁ hknown hu hposition hp).bind (Q := Taken Γ) ?_
  rintro q _ σ₂ τ₂ hm₂
  refine steps_taken (p := .element a q) (fun _ h => by cases h) rfl ?_ (alikeIn_of_match hm₂)
  change some (Except.ok (Place.element (τ₂.locals t.id) (τ₂.locals u.id)), τ₂) = _
  rw [hm₂.known.1.2, hm₂.known.2]

/-- The base is moved, and the position stays. -/
theorem takes_moved_base (ht : Γ t.id = false) :
    TakesPlace M rounds Γ (evalPlace M rounds (.index loc type base position))
      ⟨[.varDecl b.loc t (some b)], .index loc type (.local b.loc t) p⟩ := by
  intro σ τ hm
  rw [evalPlace]
  refine (agree_moved hm rests_true ht hbase hb).bind (Q := Taken Γ) ?_
  rintro a _ σ₁ τ₁ hm₁
  have hknown : Rests (fun f : UInt32 → M.Value => True ∧ f t.id = a) fun y => Γ y = false :=
    rests_true.and (rests_local ht)
  -- Reading the temporary changes nothing.
  have hget : evalPlace M rounds (.index loc type (.local b.loc t) p) τ₁ =
      (do let q ← eval M rounds p; return Place.element a q : Exec M (Place M.Value)) τ₁ := by
    rw [evalPlace, eval, ← hm₁.known.2]
    rfl
  unfold Steps
  rw [hget]
  refine (agree_stays hm₁ hknown hposition hp).bind (Q := Taken Γ) ?_
  rintro q _ σ₂ τ₂ ⟨rfl, hm₂⟩
  exact steps_taken (p := .element a q) (fun _ h => by cases h) rfl rfl (alikeIn_of_match hm₂)

/-- The position is moved, and overtakes the base. -/
theorem takes_moved_position (hu : Γ u.id = false) : TakesPlace M rounds Γ (do
      let q ← eval M rounds position
      let a ← eval M rounds base
      return .element a q)
    ⟨[.varDecl p.loc u (some p)], .index loc type b (.local p.loc u)⟩ := by
  intro σ τ hm
  refine (agree_moved hm rests_true hu hposition hp).bind (Q := Taken Γ) ?_
  rintro q _ σ₁ τ₁ hm₁
  have hknown : Rests (fun f : UInt32 → M.Value => True ∧ f u.id = q) fun y => Γ y = false :=
    rests_true.and (rests_local hu)
  rw [evalPlace]
  refine (agree_stays hm₁ hknown hbase hb).bind (Q := Taken Γ) ?_
  rintro a _ σ₂ τ₂ ⟨rfl, hm₂⟩
  refine steps_taken (p := .element a q) (fun _ h => by cases h) rfl ?_ (alikeIn_of_match hm₂)
  change some (Except.ok (Place.element a (τ₂.locals u.id)), τ₂) = _
  rw [hm₂.known.2]

end Index

end Taking

/-! ## Targets of assignments -/

theorem program_nextTemp (hs : Reserved s) (hlt : s.next < size) :
    Scope.program (nextTemp s type).id = false := by
  have htemp : (nextTemp s type).isTemp = true := isTemp_nextTemp hs hlt
  exact decide_eq_false (UInt32.not_lt.2 (of_decide_eq_true htemp))

theorem treeWithin_of_tempFree (h : e.TempFree) : TreeWithin M rounds .program e := by
  refine treeWithin_of_names ((Expr.tempFree_iff_names.1 h).mono fun v hv => ?_)
  exact decide_eq_true (UInt32.not_le.1 (of_decide_eq_false hv))

/-- A part of a target: it needs no statements. -/
structure Part (e : Expr) : Prop where
  calm : e.hoists = false
  natives : e.OnlyCallsNatives
  free : e.TempFree

/-- The value of a part, and the supply that is left. -/
theorem Part.gives (h : Part e) (rounds : Nat) (hM : M.KeepsClosures) (hs : Reserved s) :
    Gives (lower e).value s fun x s' =>
      Reserved s' ∧ x.stmts = [] ∧ Mirror M rounds e x.value := by
  have hsupply := Scoping.gives_normalizeValue_leaves h.free (Scoping.around_nil hs)
  refine (hsupply.and (mirrors_lower rounds hM h.calm h.natives s)).mono fun x s' hx => ?_
  exact ⟨Nat.le_trans hs hx.1.before.le, hx.2⟩

theorem Part.gives_pair {a b : Expr} (ha : Part a) (hb : Part b) (rounds : Nat)
    (hM : M.KeepsClosures) (hs : Reserved s) :
    Gives (operandPair (lower a).value (lower b).value) s fun r s' =>
      Reserved s' ∧ r.1 = [] ∧ Mirror M rounds a r.2.1 ∧ Mirror M rounds b r.2.2 := by
  refine (ha.gives rounds hM hs).bind fun x s₁ hx => ?_
  refine (hb.gives rounds hM hx.1).bind fun y s₂ hy => ?_
  rw [hy.2.1]
  exact gives_pure ⟨hy.1, hx.2.1, hx.2.2, hy.2.2⟩

theorem needs_mirror (hhow : how ≠ .unstable) (h : Mirror M rounds e v) :
    how.needs v = how.needs e := by
  cases how with
  | none => rfl
  | impure => exact congrArg not h.pure
  | unstable => exact absurd rfl hhow

/-- What is moved because it can be observed is not pure. -/
theorem isPure_of_needs (hhow : how ≠ .unstable) {f : Expr} (hf : how.needs f = true) :
    e.isPure = !how.needs e := by
  cases how with
  | none => cases hf
  | impure => exact (Bool.not_not _).symm
  | unstable => exact absurd rfl hhow

/-- A value is moved or stays, and then the run goes on. -/
theorem gives_spill_bind {β : Type} {needed : Bool} {value : Expr} {f : Hoisted → Norm β}
    {R : β → TempSupply → Prop} (moved : needed = true → s.next < size →
      Gives (f ⟨[.varDecl value.loc (nextTemp s value.type) (some value)],
        .local value.loc (nextTemp s value.type)⟩) (afterTemp s) R)
    (kept : needed = false → Gives (f ⟨[], value⟩) s R) :
    Gives (spill needed value >>= f) s R :=
  (gives_spill (Q := fun h s' => Gives (f h) s' R) moved kept).bind fun _ _ h => h

section Targets

variable {how : Spill} {loc : Loc} {type : Ty} {s : TempSupply}

theorem gives_taken_field (hM : M.KeepsClosures) (ht : (Expr.field loc type ref (some r)).TempFree)
    (h : Part r) (hs : Reserved s) :
    Gives ((lower (.field loc type ref (some r))).target how) s fun x _ =>
      TakesPlace M rounds .program (evalPlace M rounds (.field loc type ref (some r))) x := by
  refine (h.gives rounds hM hs).bind fun x s₁ hx => ?_
  obtain ⟨hs₁, hstmts, hmirror⟩ := hx
  rw [hstmts]
  refine gives_spill_bind (fun _ hlt => gives_pure ?_) fun _ => gives_pure ?_
  · exact takes_moved_receiver (program_nextTemp hs₁ hlt) (treeWithin_of_tempFree h.free).value
      hmirror.eval
  · refine takes_unmoved (treeWithin_of_tempFree ht) rfl ?_
    rw [evalPlace, evalPlace, evalReceiver, evalReceiver, hmirror.eval]

theorem gives_taken_index (hM : M.KeepsClosures) (hhow : how ≠ .unstable)
    (ht : (Expr.index loc type base position).TempFree) (hb : Part base) (hp : Part position)
    (hs : Reserved s) :
    Gives ((lower (.index loc type base position)).target how) s fun x _ =>
      TakesPlace M rounds .program (takenPlace M rounds how (.index loc type base position)) x := by
  refine (hb.gives_pair hp rounds hM hs).bind fun r s₁ hr => ?_
  obtain ⟨stmts, b, p⟩ := r
  obtain ⟨hs₁, rfl, hmb, hmp⟩ := hr
  have hwb : Within .program (eval M rounds base) := (treeWithin_of_tempFree hb.free).value
  have hwp : Within .program (eval M rounds position) := (treeWithin_of_tempFree hp.free).value
  have hordered (hn : (base.isPure && how.needs position) = false) :
      takenPlace M rounds how (.index loc type base position) =
        evalPlace M rounds (.index loc type base position) := by
    rw [takenPlace, hn, if_neg Bool.false_ne_true]
  have hstays : how.needs b = true → (base.isPure && how.needs position) = false := by
    intro hn
    rw [isPure_of_needs hhow hn, ← needs_mirror hhow hmb, hn]
    rfl
  -- A position that is moved overtakes the base if and only if the base stays.
  refine gives_spill_bind (fun hnb hlt => ?_) fun hnb => ?_
  · rw [hordered (hstays hnb)]
    refine gives_spill_bind (fun hnp hlt' => gives_pure ?_) fun hnp => gives_pure ?_
    · refine takes_moved_parts hwb hwp hmb.eval hmp.eval (program_nextTemp hs₁ hlt)
        (program_nextTemp (Nat.le_succ_of_le hs₁) hlt') fun h => ?_
      have hnext := congrArg toNat h
      rw [nextTemp, nextTemp, toNat_ofNat_of_lt' hlt, toNat_ofNat_of_lt' hlt'] at hnext
      exact absurd hnext (Nat.ne_of_lt (Nat.lt_succ_self _))
    · exact takes_moved_base hwb hwp hmb.eval hmp.eval (program_nextTemp hs₁ hlt)
  · refine gives_spill_bind (fun hnp hlt => gives_pure ?_) fun hnp => gives_pure ?_
    · have hovertakes : (base.isPure && how.needs position) = true := by
        rw [isPure_of_needs hhow hnp, ← needs_mirror hhow hmb, hnb, ← needs_mirror hhow hmp, hnp]
        rfl
      rw [takenPlace, if_pos hovertakes]
      exact takes_moved_position hwb hwp hmb.eval hmp.eval (program_nextTemp hs₁ hlt)
    · rw [hordered (by rw [← needs_mirror hhow hmp, hnp, Bool.and_false])]
      refine takes_unmoved (treeWithin_of_tempFree ht) rfl ?_
      rw [evalPlace, evalPlace, hmb.eval, hmp.eval]

/-- **A target is taken as a place**, in the order of its parts or position
first. -/
theorem gives_taken (rounds : Nat) (hM : M.KeepsClosures) (hhow : how ≠ .unstable)
    (hs : Reserved s) :
    ∀ t : Expr, t.bare.isPlace = true → t.TempFree → (∀ p ∈ t.bare.children, Part p) →
      Gives ((lower t).target how) s fun x _ =>
        TakesPlace M rounds .program (takenPlace M rounds how t) x
  | .paren _ _ inner, ht, hf, hp | .annot _ _ _ inner, ht, hf, hp =>
    gives_taken rounds hM hhow hs inner ht (hf.child (.head _)) hp
  | .local .., _, hf, _ | .field _ _ _ none, _, hf, _ =>
    gives_pure (takes_unmoved (treeWithin_of_tempFree hf) rfl rfl)
  | .field _ _ _ (some r), _, hf, hp => gives_taken_field hM hf (hp r (.head _)) hs
  | .index _ _ base position, _, hf, hp =>
    gives_taken_index hM hhow hf (hp base (.head _)) (hp position (.tail _ (.head _))) hs

end Targets

/-! ## Assignments and steps as statements -/

theorem assignSpill_compound (op : BinaryOp) (loc : Loc) :
    Lowering.assignSpill (.compound op) (.intLit loc 1) = .impure := by
  simp [Lowering.assignSpill, Expr.intLit, Expr.hoists]

/-- The statements take the place, then the right side, and store. -/
theorem agree_assigned (hop : op.isAssignment = true) {place : Exec M (Place M.Value)} {x : Hoisted}
    (hx : TakesPlace M rounds .program place x) {w : Expr} (hv : Within .program (eval M rounds v))
    (hw : eval M rounds w = eval M rounds v) (σ : State M) :
    Agree (assignTo op place (eval M rounds v) σ)
      (run M rounds (x.stmts ++ [.binary loc type op x.value w])) σ
      (fun _ _ => AlikeIn .program) (AlikeIn .program) := by
  have hlast : run M rounds [.binary loc type op x.value w] =
      (do let p ← evalPlace M rounds x.value; assignTo op (pure p) (eval M rounds v)) := by
    rw [← assignTo_eq hop, ← binary_eq_assignTo hop (eval M rounds x.value), ← hw]
    rfl
  rw [run_append, hlast, ← bind_assoc, assignTo_eq hop]
  refine (hx σ σ (alikeIn_refl σ)).bind (Q := fun r => Ends r fun _ _ => AlikeIn .program) ?_
  rintro p _ σ' τ' ⟨hp, rfl, hm⟩
  have hstore : Within .program (assignTo op (pure p) (eval M rounds v)) :=
    (within_binary op (within_pure _) (stays_pure hp) hv).bind fun _ => within_pure ()
  exact (hstore _ (fun _ _ _ _ => trivial) σ' τ' hm).mono fun _ _ _ _ h => h.2.2

/-- What an assignment or a step does, apart from its value. -/
theorem eval_change (rounds : Nat) (he : e.change? = some (t, op, v)) : op.isAssignment = true ∧
    (do let _ ← eval M rounds e) = assignTo op (evalPlace M rounds t) (eval M rounds v) := by
  obtain ⟨loc, type, rfl, hop⟩ | ⟨loc, type, step, isPost, rfl, hop, rfl, rfl⟩ :=
    Expr.change?_eq_some he
  · exact ⟨hop, binary_eq_assignTo hop _ _ _⟩
  · refine ⟨rfl, ?_⟩
    rw [eval, unary, hop, if_pos rfl, assignTo, binary, Expr.intLit, eval]
    simp only [bind_assoc, pure_bind]

/-- What is left of an assignment or a step. -/
theorem gives_change (rounds : Nat) (hM : M.KeepsClosures) (he : e.change? = some (t, op, v))
    (ht : t.bare.isPlace = true) (hf : t.TempFree) (hparts : ∀ p ∈ t.bare.children, Part p)
    (hv : Part v) (hs : Reserved s) :
    Gives ((lower e).body none) s fun stmts _ => ∀ σ : State M,
      Agree (assignTo op (takenPlace M rounds (Lowering.assignSpill op v) t)
        (eval M rounds v) σ) (run M rounds stmts) σ (fun _ _ => AlikeIn .program)
        (AlikeIn .program) := by
  have hwithin : Within .program (eval M rounds v) := (treeWithin_of_tempFree hv.free).value
  have htaken := gives_taken rounds hM (assignSpill_ne_unstable op hv.calm) hs t ht hf hparts
  -- A step is taken like the compound assignment that it stands for.
  obtain ⟨loc, type, rfl, hop⟩ | ⟨loc, type, step, isPost, rfl, hop, rfl, rfl⟩ :=
    Expr.change?_eq_some he
  · rw [lower, Lowering.binary, if_pos hop]
    refine Gives.bind (P := fun h _ => ∀ σ : State M, Agree (assignTo op
      (takenPlace M rounds (Lowering.assignSpill op v) t) (eval M rounds v) σ)
      (run M rounds h.stmts) σ (fun _ _ => AlikeIn .program) (AlikeIn .program)) ?_
      fun h _ hh => gives_pure hh
    rw [Lowering.assignment, source_lower, plain_of_calm v hv.calm, Bool.and_false,
      if_neg Bool.false_ne_true]
    refine htaken.bind fun x s₁ hx => ?_
    refine (mirrors_lower rounds hM hv.calm hv.natives s₁).bind fun y _ hy => gives_pure ?_
    rw [hy.1, List.append_nil]
    exact agree_assigned hop hx hwithin hy.2.eval
  · change Gives (Lowering.unaryStmt loc type step isPost (lower t) none) s _
    rw [assignSpill_compound] at htaken ⊢
    rw [Lowering.unaryStmt, hop]
    refine Gives.bind (P := fun h _ => ∀ σ : State M, Agree (assignTo
      (.compound step.stepOp) (takenPlace M rounds .impure t) (eval M rounds (.intLit loc 1)) σ)
      (run M rounds h.stmts) σ (fun _ _ => AlikeIn .program) (AlikeIn .program)) ?_
      fun h _ hh => gives_pure hh
    exact htaken.bind fun x _ hx => gives_pure (agree_assigned rfl hx hwithin rfl)

theorem TempFree.change (h : e.TempFree) (he : e.change? = some (t, op, v)) :
    t.TempFree ∧ v.TempFree := by
  obtain ⟨loc, type, rfl, hop⟩ | ⟨loc, type, step, isPost, rfl, hop, rfl, rfl⟩ :=
    Expr.change?_eq_some he
  · exact ⟨h.child (.head _), h.child (.tail _ (.head _))⟩
  · exact ⟨h.child (.head _), rfl⟩

/-- **The parts of a target are taken in their order, unless the position
overtakes the base.** An assignment or a step takes its place, then its
right side, and stores. The normalized statements do the same with the
place `takenPlace`, which is the place of the tree exactly if the base is
not overtaken or has the same value after the position as before. -/
theorem target_parts_in_order_iff (hM : M.KeepsClosures) (rounds : Nat) {e t v : Expr}
    {op : BinaryOp} (he : e.change? = some (t, op, v)) (ht : t.bare.isPlace = true)
    (hparts : ∀ p ∈ v :: t.bare.children, p.hoists = false ∧ p.OnlyCallsNatives)
    (hfree : e.TempFree) {s : TempSupply} (hs : Reserved s) :
    (do let _ ← eval M rounds e) = assignTo op (evalPlace M rounds t) (eval M rounds v) ∧
    Gives (normalize e none) s fun n _ => ∀ σ : State M,
      Agree (assignTo op (takenPlace M rounds (Lowering.assignSpill op v) t)
        (eval M rounds v) σ) (eval M rounds n) σ (fun _ _ => AlikeIn .program) (AlikeIn .program) ∧
      (takenPlace M rounds (Lowering.assignSpill op v) t σ = evalPlace M rounds t σ ↔
        BaseKept M rounds (Lowering.assignSpill op v) t σ) := by
  obtain ⟨hft, hfv⟩ := TempFree.change hfree he
  obtain ⟨hv, hpt⟩ := List.forall_mem_cons.1 hparts
  have hparts : ∀ p ∈ t.bare.children, Part p :=
    fun p hp => ⟨(hpt p hp).1, (hpt p hp).2, hft.bare.child hp⟩
  refine ⟨(eval_change rounds he).2, Meaning.gives_normalize ?_⟩
  refine (gives_change rounds hM he ht hft hparts ⟨hv.1, hv.2, hfv⟩ hs).mono fun stmts _ h σ => ?_
  refine ⟨steps_statements (Q := fun τ' => ∃ a σ', _ = some (Except.ok a, σ') ∧
    AlikeIn .program σ' τ') ?_, takenPlace_eq_iff _ σ t⟩
  exact Steps.mono (h σ) fun _ _ hends => hends

/-- The machine of tables, on which every call yields 0 and changes the
member `b` of null. -/
def callingTables : Machine :=
  { tables with
    perform := fun event w =>
      match event with
      | .call .. => (.ok (.int 0), fun d => if d = .field "b" (some .null) then .int 2 else w d)
      | _ => (.ok .null, w) }

/-- `a.b[f()]`. -/
def calledElement : Expr :=
  let a : Expr := .local {} ⟨1, "a", .dynamic⟩
  let f : Expr := .local {} ⟨2, "f", .dynamic⟩
  .index {} .dynamic (.field {} .dynamic { access := .inst, name := "b" } (some a))
    (.call {} .dynamic f [])

/-- `a.b[f()] = g()`. -/
def calledElementStore : Expr :=
  .mkAssign {} calledElement (.call {} .dynamic (.local {} ⟨3, "g", .dynamic⟩) [])

theorem callingTables_keepsClosures : callingTables.KeepsClosures := fun _ _ _ _ _ _ => rfl

theorem target_parts_in_order_iff_calledElement :
    let v : Expr := .call {} .dynamic (.local {} ⟨3, "g", .dynamic⟩) []
    callingTables.KeepsClosures ∧ calledElementStore.change? = some (calledElement, .assign, v) ∧
      calledElement.bare.isPlace = true ∧
      (∀ p ∈ v :: calledElement.bare.children, p.hoists = false ∧ p.OnlyCallsNatives) ∧
      calledElementStore.TempFree ∧ Reserved .all ∧
      Gives (normalize calledElementStore none) .all fun n _ => ∀ σ : State callingTables,
        Agree (assignTo .assign (takenPlace callingTables 0 .impure calledElement)
          (eval callingTables 0 v) σ) (eval callingTables 0 n) σ (fun _ _ => AlikeIn .program)
          (AlikeIn .program) ∧
        (takenPlace callingTables 0 .impure calledElement σ =
          evalPlace callingTables 0 calledElement σ ↔
            BaseKept callingTables 0 .impure calledElement σ) := by
  intro v
  have hparts : ∀ p ∈ v :: calledElement.bare.children,
      p.hoists = false ∧ p.OnlyCallsNatives := by decide
  have hfree : calledElementStore.TempFree := by decide
  exact ⟨callingTables_keepsClosures, rfl, rfl, hparts, hfree, reserved_all,
    (target_parts_in_order_iff callingTables_keepsClosures 0 rfl rfl hparts hfree reserved_all).2⟩

/-- **A position can overtake its base.** Where `a.b` is 1 and `f` makes
it 2, `a.b[f()] = g()` stores into table 1, and the normalized statements
store into table 2. -/
theorem position_overtakes_base : ∃ n s v u σ' τ', ∃ σ : State callingTables,
    normalize calledElementStore none .all = .ok n s ∧
    eval callingTables 0 calledElementStore σ = some (.ok v, σ') ∧
    eval callingTables 0 n σ = some (.ok u, τ') ∧
    σ'.world (.item (.int 1) (.int 0)) = .int 0 ∧ σ'.world (.item (.int 2) (.int 0)) = .null ∧
    τ'.world (.item (.int 1) (.int 0)) = .null ∧ τ'.world (.item (.int 2) (.int 0)) = .int 0 :=
  ⟨_, _, _, _, _, _,
    ⟨fun _ => .null, fun d => if d = .field "b" (some .null) then .int 1 else .null, []⟩,
    rfl, rfl, rfl, rfl, rfl, rfl, rfl⟩

end Normalize

end LuaBackend
