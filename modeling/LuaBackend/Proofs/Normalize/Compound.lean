import LuaBackend.Proofs.Normalize.TargetOrder
import LuaBackend.Proofs.Normalize.Vocabulary

/-!
# Compound assignments and what they stand for

`t += e` stands for `t = t + e`: both read `t`, then evaluate `e`, and
then store the sum. Normalization takes the statements that `e` needs out
of either. In the second, the value of `t` is moved into a temporary
before those statements; in the first, `t` is read after them. So the two
differ where the statements change what `t` holds: `x += { x = 5; 1 }`
leaves 6 in `x`, whatever `x` was before.
-/

namespace LuaBackend

open Exec Bool

def BinaryOp.isStrict (op : BinaryOp) : Bool := !op.isMutating && op ≠ .and && op ≠ .or

theorem Exec.binary_of_isStrict {M : Machine} {op : BinaryOp} (hop : op.isStrict = true)
    (lhs : Exec M M.Value) (place : Exec M (Place M.Value)) (rhs : Exec M M.Value) :
    binary op lhs place rhs = (do let a ← lhs; let b ← rhs; return M.binary op a b) := by
  simp only [BinaryOp.isStrict, and_eq_true, not_eq_true', decide_eq_true_eq] at hop
  exact binary_strict hop.1.1 hop.1.2 hop.2

namespace Expr

def isConstant : Expr → Bool
  | const .. | typeRef .. => true
  | _ => false

/-- A local, or a member or an element whose parts are constants; no
constructor of an enum, and no method with a Lua name of its own. -/
def isFixedSlot : Expr → Bool
  | .local .. => true
  | field _ _ ref receiver =>
    ref.access ≠ .enumCtor && !ref.isForwarded && receiver.all isConstant
  | index _ _ base position => base.isConstant && position.isConstant
  | _ => false

theorem exists_eval_constant (M : Machine) (rounds : Nat) {c : Expr} (hc : c.isConstant = true) :
    ∃ a, eval M rounds c = pure a := by
  cases c with
  | const | typeRef => exact ⟨_, rfl⟩
  | _ => cases hc

end Expr

namespace Simulation

variable {M : Machine} {α β γ : Type} {r : Result M α} {σ τ : State M}
variable {A J : State M → State M → Prop}
variable {y : Exec M β} {x : Exec M α}

/-- Computations that begin alike agree exactly if they go on alike. -/
theorem agree_bind_iff {f : α → Exec M β} {g : α → Exec M γ} {R : β → γ → State M → State M → Prop}
    (hJ : ∀ σ, J σ σ) :
    Agree ((x >>= f) σ) (x >>= g) σ R J ↔
      ∀ a σ', x σ = some (.ok a, σ') → Agree (f a σ') (g a) σ' R J := by
  unfold Agree Steps
  rcases cases x σ with h | ⟨a, σ', h⟩ | ⟨j, σ', h⟩
  · simp [bind_of_none h, h]
  · simp [bind_of_ok h, h]
  · simp [bind_of_error h, h, hJ]

theorem agree_iff_of_eq {x : Exec M β} {R : α → β → State M → State M → Prop} (h : x τ = y τ) :
    Agree r x τ R J ↔ Agree r y τ R J := by
  unfold Agree Steps
  rw [h]

theorem agree_discard_iff :
    Agree r (do let _ ← y) τ (fun _ _ => A) J ↔ Agree r y τ (fun _ _ => A) J := by
  unfold Agree Steps
  rcases cases y τ with h | ⟨b, τ', h⟩ | ⟨j, τ', h⟩
  · simp [bind_of_none h, h]
  · simp [bind_of_ok h, h, pure_apply, Ends]
  · simp [bind_of_error h, h]

theorem agree_discard_source_iff : Agree ((do let _ ← x : Exec M Unit) σ) y τ (fun _ _ => A) J ↔
    Agree (x σ) y τ (fun _ _ => A) J := by
  unfold Agree Steps Ends
  rcases cases x σ with h | ⟨a, σ', h⟩ | ⟨j, σ', h⟩
  · simp [bind_of_none h, h]
  · simp [bind_of_ok h, h, pure_apply]
  · simp [bind_of_error h, h]

end Simulation

namespace Normalize

open Meaning Simulation

variable {M : Machine} {rounds : Nat} {t : Expr}
variable {y : UInt32}
variable {c l : Expr}
variable {loc loc' : Loc} {p : Place M.Value} {v : Var} {type : Ty}
variable {Q : List Expr → TempSupply → Prop} {op : BinaryOp}

section AlikeIn

variable {Γ : Scope} {α β γ : Type} {σ σ' τ τ' : State M}

theorem alikeIn_trans (h : AlikeIn Γ σ τ) (h' : AlikeIn Γ τ τ') : AlikeIn Γ σ τ' :=
  ⟨h.world.trans h'.world, h.trace.trans h'.trace,
    fun y hy => (h.locals y hy).trans (h'.locals y hy), trivial⟩

theorem alikeIn_congr (h : AlikeIn Γ τ τ') : AlikeIn Γ σ τ ↔ AlikeIn Γ σ τ' :=
  ⟨fun h' => alikeIn_trans h' h, fun h' => alikeIn_trans h' (⟨h.world.symm, h.trace.symm, fun y hy =>
    (h.locals y hy).symm, trivial⟩)⟩

/-- Agreement passes along computations that agree. -/
theorem agree_congr {r : Result M α} {x : Exec M β} {y : Exec M γ}
    (h : Agree (x σ) y τ (fun _ _ => AlikeIn Γ) (AlikeIn Γ)) :
    Agree r y τ (fun _ _ => AlikeIn Γ) (AlikeIn Γ) ↔ Agree r x σ (fun _ _ => AlikeIn Γ) (AlikeIn Γ) := by
  unfold Agree Steps Ends at h ⊢
  rcases cases y τ with hy | ⟨b, τ', hy⟩ | ⟨j, τ', hy⟩
  · rw [hy] at h ⊢
    change x σ = none at h
    rw [h]
  · rw [hy] at h ⊢
    obtain ⟨a, σ', hx, hm⟩ := h
    simp only [hx, alikeIn_congr hm]
  · rw [hy] at h ⊢
    obtain ⟨σ', hx, hm⟩ := h
    simp only [hx, alikeIn_congr hm]

theorem agree_self (x : Exec M α) (σ : State M) :
    Agree (x σ) x σ (fun _ _ => AlikeIn Γ) (AlikeIn Γ) := by
  unfold Agree Steps
  rcases cases x σ with h | ⟨a, σ', h⟩ | ⟨j, σ', h⟩
  · rw [h]
  · rw [h]
    exact ⟨a, σ', rfl, alikeIn_refl σ'⟩
  · rw [h]
    exact ⟨σ', rfl, alikeIn_refl σ'⟩

/-- Stores into one place are alike exactly if they are the same. -/
theorem agree_store_iff (hp : InScope .program p) (v w : M.Value) :
    Agree (Exec.store p v σ) (Exec.store p w) σ (fun _ _ => AlikeIn .program) (AlikeIn .program) ↔
      Exec.store p v σ = Exec.store p w σ := by
  unfold Agree
  cases p with
  | «local» y =>
    refine ⟨fun h => ?_, fun h => ?_⟩
    · obtain ⟨_, _, ⟨⟩, hm⟩ := Steps.of_ok h rfl
      have hy := hm.locals y (hp y rfl)
      rw [State.locals_set_self, State.locals_set_self] at hy
      rw [hy]
    · rw [h]
      exact ⟨(), _, rfl, alikeIn_refl _⟩
  | member ref receiver | element base position =>
    refine ⟨fun h => ?_, fun h => ?_⟩
    · obtain ⟨_, _, ⟨⟩, hm⟩ := Steps.of_ok h rfl
      have hw := hm.world
      simp only [Exec.store, Exec.modify] at hw ⊢
      rw [hw]
    · rw [h]
      exact ⟨(), _, rfl, alikeIn_refl _⟩
  | nowhere => exact iff_of_true ⟨(), _, rfl, alikeIn_refl _⟩ rfl

end AlikeIn

theorem lower_constant (hc : c.isConstant = true) : lower c = .leaf c := by
  cases c with
  | const | typeRef => rfl
  | _ => cases hc

theorem needs_constant (hc : c.isConstant = true) (how : Spill) : how.needs c = false := by
  cases c with
  | const | typeRef => cases how <;> rfl
  | _ => cases hc

theorem lower_fixedSlot (ht : t.isFixedSlot = true) :
    (lower t).value = pure ⟨[], t⟩ ∧ ∀ how, (lower t).target how = pure ⟨[], t⟩ := by
  cases t with
  | «local» => exact ⟨rfl, fun _ => rfl⟩
  | field loc type ref receiver =>
    simp only [Expr.isFixedSlot, and_eq_true, not_eq_true'] at ht
    obtain ⟨⟨-, hforward⟩, hreceiver⟩ := ht
    cases receiver with
    | none =>
      refine ⟨?_, fun _ => rfl⟩
      change Lowering.fieldValue loc type ref none = _
      rw [Lowering.fieldValue, hforward]
      rfl
    | some c =>
      refine ⟨?_, fun how => ?_⟩
      · change Lowering.fieldValue loc type ref (some (lower c)) = _
        rw [lower_constant hreceiver, Lowering.fieldValue, hforward]
        change (spill (ref.access = .closure && Spill.impure.needs c) c >>= _) = _
        rw [needs_constant hreceiver, Bool.and_false]
        rfl
      · change Lowering.fieldTarget loc type ref (some (lower c)) how = _
        rw [lower_constant hreceiver, Lowering.fieldTarget]
        change (spill (how.needs c) c >>= _) = _
        rw [needs_constant hreceiver]
        rfl
  | index loc type base position =>
    obtain ⟨hb, hp⟩ := and_eq_true_iff.1 ht
    rw [lower, lower_constant hb, lower_constant hp]
    refine ⟨rfl, fun how => ?_⟩
    change (spill (how.needs base) base >>= fun _ => spill (how.needs position) position >>= _) = _
    rw [needs_constant hb, needs_constant hp]
    rfl
  | _ => cases ht

/-- Before statements a fixed slot is moved into a temporary. -/
theorem isStable_fixedSlot (ht : t.isFixedSlot = true) (hf : t.TempFree) : t.isStable = false := by
  cases t with
  | «local» loc v => exact (Expr.tempFree_iff_names.1 hf).node v (.head _)
  | field =>
    simp only [Expr.isFixedSlot, and_eq_true, decide_eq_true_eq] at ht
    exact decide_eq_false ht.1.1
  | index => rfl
  | _ => cases ht

/-- The tree names the place, in every state. -/
structure Designates (M : Machine) (rounds : Nat) (t : Expr) (p : Place M.Value) : Prop where
  program : InScope .program p
  place : evalPlace M rounds t = pure p
  value : eval M rounds t = load p

theorem program_of_tempFree (hf : (Expr.local loc v).TempFree) : Scope.program v.id = true := by
  have hv := (Expr.tempFree_iff_names.1 hf).node v (.head _)
  exact decide_eq_true (UInt32.not_le.1 (of_decide_eq_false hv))

theorem exists_designates (M : Machine) (rounds : Nat) (ht : t.isFixedSlot = true)
    (hf : t.TempFree) : ∃ p, Designates M rounds t p := by
  cases t with
  | «local» loc v =>
    refine ⟨.local v.id, ?_, rfl, rfl⟩
    rintro _ ⟨⟩
    exact program_of_tempFree hf
  | field loc type ref receiver =>
    simp only [Expr.isFixedSlot, and_eq_true, decide_eq_true_eq] at ht
    obtain ⟨⟨haccess, -⟩, hreceiver⟩ := ht
    cases receiver with
    | none =>
      refine ⟨.member ref none, (fun _ h => by cases h), rfl, ?_⟩
      rw [eval, if_neg haccess]
      rfl
    | some =>
      obtain ⟨a, ha⟩ := Expr.exists_eval_constant M rounds hreceiver
      refine ⟨.member ref (some a), (fun _ h => by cases h), ?_, ?_⟩
      · rw [evalPlace, evalReceiver, ha]
        rfl
      · rw [eval, if_neg haccess, evalReceiver, ha]
        rfl
  | index =>
    obtain ⟨hb, hp⟩ := and_eq_true_iff.1 ht
    obtain ⟨a, ha⟩ := Expr.exists_eval_constant M rounds hb
    obtain ⟨b, hb⟩ := Expr.exists_eval_constant M rounds hp
    refine ⟨.element a b, (fun _ h => by cases h), ?_, ?_⟩
    · rw [evalPlace, ha, hb]
      rfl
    · rw [eval, ha, hb]
      rfl
  | _ => cases ht

/-! ## Reading the target early and late -/

section Order

variable {op : BinaryOp} {h : Hoisted} {p : Place M.Value} {σ : State M}

theorem Designates.assignTo (hp : Designates M rounds t p) (v : M.Value) :
    assignTo .assign (evalPlace M rounds t) (pure v) = store p v := by
  rw [hp.place, Exec.assignTo, Exec.binary]
  simp only [pure_bind, bind_assoc]
  exact bind_pure _

def storedEarly (M : Machine) (rounds : Nat) (t : Expr) (op : BinaryOp) (h : Hoisted) :
    Exec M Unit := do
  let a ← eval M rounds t
  run M rounds h.stmts
  let b ← eval M rounds h.value
  assignTo .assign (evalPlace M rounds t) (pure (M.binary op a b))

theorem storedEarly_of_calm (hcalm : h.stmts = []) : storedEarly M rounds t op h = (do
    let a ← eval M rounds t
    let b ← eval M rounds h.value
    assignTo .assign (evalPlace M rounds t) (pure (M.binary op a b))) := by
  rw [storedEarly, hcalm]
  rfl

def storedLate (M : Machine) (rounds : Nat) (t : Expr) (op : BinaryOp) (h : Hoisted) :
    Exec M Unit := do
  run M rounds h.stmts
  let a ← eval M rounds t
  let b ← eval M rounds h.value
  assignTo .assign (evalPlace M rounds t) (pure (M.binary op a b))

/-- The values of the target before and after the statements of the right
side lead to the same store. -/
def OldKept (M : Machine) (rounds : Nat) (t : Expr) (op : BinaryOp) (h : Hoisted)
    (σ : State M) : Prop :=
  ∀ a a' b σ₁ σ₂, eval M rounds t σ = some (.ok a, σ) →
    run M rounds h.stmts σ = some (.ok (), σ₁) → eval M rounds t σ₁ = some (.ok a', σ₁) →
    eval M rounds h.value σ₁ = some (.ok b, σ₂) →
    assignTo .assign (evalPlace M rounds t) (pure (M.binary op a b)) σ₂ =
      assignTo .assign (evalPlace M rounds t) (pure (M.binary op a' b)) σ₂

/-- A target that keeps its value leads to the same store. -/
theorem oldKept_of_same (hsame : ∀ a σ₁, eval M rounds t σ = some (.ok a, σ) →
    run M rounds h.stmts σ = some (.ok (), σ₁) → eval M rounds t σ₁ = some (.ok a, σ₁)) :
    OldKept M rounds t op h σ := by
  intro a a' b σ₁ σ₂ ha hrun ha' _
  have heq := (hsame a σ₁ ha hrun).symm.trans ha'
  cases heq
  rfl

/-- The two orders agree exactly if the old value is kept. -/
theorem agree_late_early_iff (hp : Designates M rounds t p) :
    Agree (storedLate M rounds t op h σ) (storedEarly M rounds t op h) σ
      (fun _ _ => AlikeIn .program) (AlikeIn .program) ↔ OldKept M rounds t op h σ := by
  have hvalue (σ : State M) : ∃ a, eval M rounds t σ = some (.ok a, σ) :=
    hp.value ▸ (by cases p <;> exact ⟨_, rfl⟩)
  obtain ⟨a, ha⟩ := hvalue σ
  rw [storedEarly, agree_iff_of_eq (bind_of_ok ha), storedLate, agree_bind_iff alikeIn_refl]
  refine ⟨fun hagree => ?_, fun hkept _ σ₁ hrun => ?_⟩
  · intro a₀ a' b σ₁ σ₂ ha₀ hrun ha' hb
    cases ha.symm.trans ha₀
    have hrest := hagree () σ₁ hrun
    rw [bind_of_ok ha', agree_bind_iff alikeIn_refl] at hrest
    have hstore := hrest b σ₂ hb
    rw [hp.assignTo, hp.assignTo] at hstore ⊢
    exact ((agree_store_iff hp.program _ _).1 hstore).symm
  · obtain ⟨a', ha'⟩ := hvalue σ₁
    rw [bind_of_ok ha', agree_bind_iff alikeIn_refl]
    intro b σ₂ hb
    have hstore := hkept a a' b σ₁ σ₂ ha hrun ha' hb
    rw [hp.assignTo, hp.assignTo] at hstore ⊢
    exact (agree_store_iff hp.program _ _).2 hstore.symm

variable {loc loc' : Loc} {type type' : Ty} {v : Expr}

/-- A compound assignment reads its target first. -/
theorem run_compound (hp : Designates M rounds t p) :
    run M rounds [.binary loc type (.compound op) t v] = (do
      let a ← eval M rounds t
      let b ← eval M rounds v
      assignTo .assign (evalPlace M rounds t) (pure (M.binary op a b))) := by
  simp only [run, eval, assignTo, binary, hp.place, hp.value, pure_bind, bind_assoc]

/-- An operator takes both operands before the store. -/
theorem run_operation (hp : Designates M rounds t p) (hop : op.isStrict = true) :
    run M rounds [.binary loc type .assign t (.binary loc' type' op l v)] = (do
      let a ← eval M rounds l
      let b ← eval M rounds v
      assignTo .assign (evalPlace M rounds t) (pure (M.binary op a b))) := by
  simp only [run, eval, binary_of_isStrict hop]
  simp only [assignTo, binary, hp.place, pure_bind, bind_assoc]

end Order

section Frame

variable {Γ : Scope} {op : BinaryOp} {h : Hoisted} {p : Place M.Value}

theorem within_run {es : List Expr} (hes : ∀ e ∈ es, Within Γ (eval M rounds e)) :
    Within Γ (run M rounds es) := by
  induction es with
  | nil => exact within_pure ()
  | cons e rest ih =>
    obtain ⟨he, hrest⟩ := List.forall_mem_cons.1 hes
    exact he.bind fun _ => ih hrest

/-- Neither the statements nor the value name the local. -/
structure Spares (y : UInt32) (h : Hoisted) : Prop where
  stmts : ∀ e ∈ h.stmts, e.Names fun v => v.id ≠ y
  value : h.value.Names fun v => v.id ≠ y

abbrev allBut (y : UInt32) : Scope := Scope.without (fun _ => true) y

theorem allBut_of_ne {x : UInt32} (hne : x ≠ y) : allBut y x = true := by
  simp [Scope.without, hne]

theorem Spares.within_stmts (hh : Spares y h) : Within (allBut y) (run M rounds h.stmts) :=
  within_run fun e he => (treeWithin_of_names ((hh.stmts e he).mono fun _ => allBut_of_ne)).value

/-- A temporary that the right side does not name keeps the old value. -/
theorem agree_expanded (hp : Designates M rounds t p) (hop : op.isStrict = true) {u : Var}
    (hu : Scope.program u.id = false) (hh : Spares u.id h) {loc'' : Loc} {type' : Ty} (σ : State M)
    :
    Agree (storedEarly M rounds t op h σ) (run M rounds ([.varDecl loc u (some t)] ++
      (h.stmts ++ [.binary loc' type .assign t (.binary loc'' type' op (.local loc u) h.value)])))
      σ (fun _ _ => AlikeIn .program) (AlikeIn .program) := by
  have hprogram {y : UInt32} (hy : Scope.program y = true) : allBut u.id y = true :=
    allBut_of_ne fun h => absurd (hu.symm.trans (h ▸ hy)) Bool.false_ne_true
  have hweaken {I : Known M} (σ τ : State M) (hm : Match (allBut u.id) I σ τ) :
      AlikeIn .program σ τ := alikeIn_of_match (hm.scope_mono fun y => hprogram)
  have hscope : InScope (allBut u.id) p := fun y hy => hprogram (hp.program y hy)
  have hout : allBut u.id u.id = false := by simp [Scope.without]
  have hread : Within (allBut u.id) (eval M rounds t) := hp.value ▸ within_load hscope
  -- The old value goes into `u`, which is all that the target has apart from the source.
  rw [run_append]
  refine Agree.bind (Q := fun r => Ends r fun _ _ => AlikeIn .program)
    ((agree_moved (alikeIn_refl σ) (fun _ _ _ _ => trivial) hout hread rfl).exit_mono hweaken) ?_
  rintro a _ σ₁ τ₁ hm₁
  have hknown : Rests (M := M) (fun f => True ∧ f u.id = a) fun y => allBut u.id y = false :=
    Rests.and (fun _ _ _ _ => trivial) (rests_local hout)
  rw [run_append]
  refine Agree.bind (Q := fun r => Ends r fun _ _ => AlikeIn .program)
    ((within_iff.1 hh.within_stmts _ hknown σ₁ τ₁ hm₁).exit_mono hweaken) ?_
  rintro _ _ σ₂ τ₂ ⟨rfl, hm₂⟩
  -- The right side does not name `u`, so it still holds the old value.
  have hold : eval M rounds (.local loc u) τ₂ = some (.ok a, τ₂) := eval_local hm₂.known.2
  have hstored : Within (allBut u.id) (do
      let b ← eval M rounds h.value
      assignTo .assign (evalPlace M rounds t) (pure (M.binary op a b))) := by
    refine ((treeWithin_of_names (hh.value.mono fun _ => allBut_of_ne)).value).bind fun b => ?_
    rw [hp.assignTo]
    exact within_store hscope _
  have hlast := (hstored _ hknown σ₂ τ₂ hm₂).exit_mono hweaken
  rw [run_operation hp hop]
  refine (agree_iff_of_eq (bind_of_ok hold)).2 ?_
  exact hlast.mono fun _ _ _ _ hr => hweaken _ _ hr.2.2

end Frame

section Runs

variable {op : BinaryOp} {e : Expr} {h : Hoisted} {s s₁ : TempSupply}
variable {loc loc' : Loc} {type type' : Ty}

theorem gives_bind_of_ok {α β : Type} {x : Norm α} {f : α → Norm β} {a : α}
    {R : β → TempSupply → Prop} (hx : x s = .ok a s₁) (hf : Gives (f a) s₁ R) :
    Gives (x >>= f) s R := by
  have hfirst : Gives x s fun b s' => b = a ∧ s' = s₁ := by
    unfold Gives
    rw [hx]
    exact ⟨rfl, rfl⟩
  refine hfirst.bind ?_
  rintro _ _ ⟨rfl, rfl⟩
  exact hf

/-- An assignment to a fixed slot takes its right side and stores. -/
theorem assignStmt_fixedSlot (ht : t.isFixedSlot = true) {rhs : Lowering}
    (hplain : (op = .assign && rhs.source.bare.isBlockLike) = false) :
    Lowering.assignStmt loc type op (lower t) rhs none =
      (do let h ← rhs.value; return h.stmts ++ [.binary loc type op t h.value]) := by
  rw [Lowering.assignStmt, Lowering.assignment, hplain, if_neg Bool.false_ne_true,
    (lower_fixedSlot ht).2, pure_bind, bind_assoc]
  rfl

theorem value_of_isStrict (hop : op.isStrict = true) {r : Expr} :
    (lower (.binary loc type op l r)).value =
      Lowering.operation loc type op (lower l) (lower r) := by
  rw [value_binary]
  cases op with
  | assign | compound | nullCoalesce | and | or => cases hop
  | _ => rfl

/-- What is left of a compound assignment. -/
theorem gives_compound (ht : t.isFixedSlot = true) (hrun : normalizeValue e s = .ok h s₁)
    (hq : Q (h.stmts ++ [.binary loc type (.compound op) t h.value]) s₁) :
    Gives ((lower (.binary loc type (.compound op) t e)).body none) s Q := by
  change Gives (Lowering.assignStmt loc type (.compound op) (lower t) (lower e) none) s Q
  rw [assignStmt_fixedSlot ht rfl]
  exact gives_bind_of_ok hrun (gives_pure hq)

/-- The old value is moved unless the right side needs no statements. -/
theorem gives_expansion (ht : t.isFixedSlot = true) (hf : t.TempFree) (hop : op.isStrict = true)
    (hrun : normalizeValue e s = .ok h s₁)
    (calm : h.stmts = [] → Q [.binary loc type .assign t (.binary loc' type' op t h.value)] s₁)
    (moved : s₁.next < UInt32.size →
      Q ([.varDecl t.loc (nextTemp s₁ t.type) (some t)] ++ (h.stmts ++ [.binary loc type .assign t
          (.binary loc' type' op (.local t.loc (nextTemp s₁ t.type)) h.value)])) (afterTemp s₁)) :
    Gives ((lower (.binary loc type .assign t (.binary loc' type' op t e))).body none) s Q := by
  change Gives (Lowering.assignStmt loc type .assign (lower t)
    (lower (.binary loc' type' op t e)) none) s Q
  rw [assignStmt_fixedSlot ht (by rw [source_lower]; rfl), value_of_isStrict hop,
    Lowering.operation, operandPair, (lower_fixedSlot ht).1]
  simp only [pure_bind, bind_assoc]
  refine gives_bind_of_ok hrun ?_
  split
  · rename_i hempty
    exact gives_pure (calm (List.isEmpty_iff.1 hempty))
  · rw [bind_assoc, isStable_fixedSlot ht hf]
    refine gives_spill_bind (fun _ hlt => gives_pure ?_) fun h => by cases h
    have hmoved := moved hlt
    rw [← List.append_assoc] at hmoved
    exact hmoved

end Runs

/-! ## Names -/

section Names

variable {e : Expr} {h : Hoisted} {s s₁ : TempSupply}

/-- A run has not used the temporary that comes next. -/
theorem spares_nextTemp {a : Nat} (hh : Scoping.Leaves temporaries (fun _ => True) [] a s₁.next h)
    (hs : Reserved s₁) (hlt : s₁.next < UInt32.size) : Spares (nextTemp s₁ type).id h := by
  have hknown (v : Var) (hv : Scoping.Known (fun _ => True) s₁.next v) :
      v.id ≠ (nextTemp s₁ type).id := by
    intro heq
    have htemp : v.isTemp = true := by
      rw [Var.isTemp, heq]
      exact isTemp_nextTemp hs hlt
    have hbelow := hv.1 htemp
    rw [heq, nextTemp, UInt32.toNat_ofNat_of_lt' hlt] at hbelow
    exact absurd hbelow (Nat.lt_irrefl _)
  exact ⟨fun c hc => (hh.before.run.throughout c hc).mono fun n hn v hv => hknown v (hn v hv),
    hh.value.throughout.mono fun n hn v hv => hknown v (hn v hv)⟩

def OtherThan (y : UInt32) : Word → Prop
  | .var v => v.id ≠ y
  | _ => True

theorem worded_otherThan : e.Worded (OtherThan y) ↔ e.Names fun v => v.id ≠ y := by
  refine ⟨fun h => Expr.Throughout.mono h fun n hn => (Expr.forall_mem_words.1 hn).1,
    fun h => Expr.Throughout.mono h fun n hn => Expr.forall_mem_words.2 ⟨hn, ?_, ?_⟩⟩
  · exact fun _ _ => trivial
  · exact fun _ _ => trivial

/-- Normalization names no other local of the program. -/
theorem spares_of_names (hy : Scope.program y = true) (hs : Reserved s)
    (he : e.Names fun v => v.id ≠ y) (hrun : normalizeValue e s = .ok h s₁) : Spares y h := by
  have htemp (u : Var) (hu : u.isTemp = true) : OtherThan y (.var u) := by
    rintro rfl
    exact absurd (of_decide_eq_true hy) (UInt32.not_lt.2 (of_decide_eq_true hu))
  have hspoken := ((disciplined_lower (R := (vocabulary htemp).regimen)
    (worded_otherThan.2 he)).value s hs).of_ok hrun
  exact ⟨fun c hc => worded_otherThan.1 (hspoken.2.stmts c hc), worded_otherThan.1 hspoken.2.value⟩

/-- A local that is not named keeps its value. -/
theorem Spares.oldKept (hh : Spares v.id h) (σ : State M) :
    OldKept M rounds (.local loc v) op h σ := by
  refine oldKept_of_same fun a σ₁ ha hrun => ?_
  have hout : allBut v.id v.id = false := by simp [Scope.without]
  have hm : Match (allBut v.id) (fun f => f v.id = σ.locals v.id) σ σ :=
    (alikeIn_refl σ).known_mono rfl
  have hwithin : Within (allBut v.id) (run M rounds h.stmts) := hh.within_stmts
  have hagree := within_iff.1 hwithin _ (rests_local hout) σ σ hm
  obtain ⟨_, _, -, -, hm₁⟩ := Steps.of_ok hagree hrun
  cases ha
  exact eval_local hm₁.known

end Names

/-- The statements that are left compare as the orders of reading do. -/
theorem agree_normalized_iff {h : Hoisted} (hp : Designates M rounds t p) {cs xs : List Expr}
    {σ : State M} (hc : run M rounds cs = storedLate M rounds t op h)
    (hx : Agree (storedEarly M rounds t op h σ) (run M rounds xs) σ (fun _ _ => AlikeIn .program)
      (AlikeIn .program)) :
    Agree (eval M rounds (.statements loc cs) σ) (eval M rounds (.statements loc' xs)) σ
      (fun _ _ => AlikeIn .program) (AlikeIn .program) ↔ OldKept M rounds t op h σ := by
  rw [← agree_discard_iff, ← agree_discard_source_iff, Expr.statements, Expr.statements, eval,
    eval, evalSeq_discard, evalSeq_discard, hc, agree_congr hx, agree_late_early_iff hp]

/-- **A compound assignment agrees with what it stands for exactly if the
statements of its right side keep the old value**, as far as the store can
tell. As trees the two mean the same. Nothing is lost if the right side
needs no statements, or does not name the assigned local. -/
theorem compound_agrees_iff (M : Machine) (rounds : Nat) {t e : Expr} {op : BinaryOp}
    (ht : t.isFixedSlot = true) (hop : op.isStrict = true) (hft : t.TempFree) (hfe : e.TempFree)
    {s : TempSupply} (hs : Reserved s) (loc loc' : Loc) (type type' : Ty) :
    eval M rounds (.binary loc type (.compound op) t e) =
        eval M rounds (.binary loc type .assign t (.binary loc' type' op t e)) ∧
      Gives (normalizeValue e) s fun h _ =>
        Gives (normalize (.binary loc type (.compound op) t e) none) s fun c _ =>
          Gives (normalize (.binary loc type .assign t (.binary loc' type' op t e)) none) s
            fun x _ => ∀ σ,
              (Agree (eval M rounds c σ) (eval M rounds x) σ (fun _ _ => AlikeIn .program)
                (AlikeIn .program) ↔ OldKept M rounds t op h σ) ∧
              (e.hoists = false → OldKept M rounds t op h σ) ∧
              ∀ l v, t = .local l v → (e.Names fun u => u.id ≠ v.id) →
                OldKept M rounds t op h σ := by
  obtain ⟨p, hp⟩ := exists_designates M rounds ht hft
  refine ⟨?_, ?_⟩
  · simp only [eval, binary_of_isStrict hop]
    simp only [binary, hp.place, hp.value, pure_bind, bind_assoc]
  · have hvalue := (Scoping.gives_normalizeValue_leaves hfe (Scoping.around_nil hs)).and
      ((predicted_lower e).value s)
    refine (hvalue.and_ok fun h s₁ hrun => hrun).mono ?_
    rintro h s₁ ⟨⟨hleaves, hquiet⟩, hrun⟩
    have hs₁ : Reserved s₁ := Nat.le_trans hs hleaves.before.le
    have hcalm (he : e.hoists = false) : h.stmts = [] := by
      rw [source_lower] at hquiet
      exact (hquiet he).stmts
    have hkept (he : e.hoists = false) (σ : State M) : OldKept M rounds t op h σ := by
      refine oldKept_of_same fun a σ₁ ha hrun => ?_
      rw [hcalm he] at hrun
      cases hrun
      exact ha
    have hspared (σ : State M) (l : Loc) (v : Var) (hl : t = .local l v)
        (hv : e.Names fun u => u.id ≠ v.id) : OldKept M rounds t op h σ := by
      subst hl
      exact (spares_of_names (program_of_tempFree hft) hs hv hrun).oldKept σ
    have hlate : run M rounds (h.stmts ++ [.binary loc type (.compound op) t h.value]) =
        storedLate M rounds t op h := by
      rw [run_append, run_compound hp, storedLate]
    refine Meaning.gives_normalize (gives_compound ht hrun ?_)
    refine Meaning.gives_normalize (gives_expansion ht hft hop hrun (fun hstmts => ?_) fun hlt =>
      ?_)
    · refine fun σ => ⟨agree_normalized_iff hp hlate ?_, (hkept · σ), hspared σ⟩
      rw [run_operation hp hop, ← storedEarly_of_calm hstmts]
      exact agree_self _ σ
    · refine fun σ => ⟨agree_normalized_iff hp hlate ?_, (hkept · σ), hspared σ⟩
      exact agree_expanded hp hop (program_nextTemp hs₁ hlt) (spares_nextTemp hleaves hs₁ hlt) σ

/-- The machine of constants, on which `+` adds integers. -/
def sums : Machine :=
  { constants with
    binary := fun op a b =>
      match op, a, b with
      | .add, .int m, .int n => .int (m + n)
      | op, a, b => constants.binary op a b
    truth_eq_null := constants.truth_eq_null }

/-- The local `x`. -/
def counter : Expr := .local {} ⟨1, "x", .int⟩

/-- `{ x = 5; 1 }`. -/
def oneAfterReset : Expr :=
  .block {} .int [.mkAssign {} counter (.intLit {} 5), .intLit {} 1]

theorem compound_agrees_iff_oneAfterReset :
    counter.isFixedSlot = true ∧ BinaryOp.add.isStrict = true ∧ counter.TempFree ∧
      oneAfterReset.TempFree ∧ Reserved .all ∧
      Gives (normalizeValue oneAfterReset) .all fun h _ =>
        Gives (normalize (.binary {} .int (.compound .add) counter oneAfterReset) none) .all
          fun c _ => Gives (normalize (.binary {} .int .assign counter
            (.binary {} .int .add counter oneAfterReset)) none) .all fun x _ => ∀ σ,
              (Agree (eval sums 0 c σ) (eval sums 0 x) σ (fun _ _ => AlikeIn .program)
                (AlikeIn .program) ↔ OldKept sums 0 counter .add h σ) ∧
              (oneAfterReset.hoists = false → OldKept sums 0 counter .add h σ) ∧
              ∀ l v, counter = .local l v → (oneAfterReset.Names fun u => u.id ≠ v.id) →
                OldKept sums 0 counter .add h σ := by
  have hx : counter.TempFree := by decide
  have he : oneAfterReset.TempFree := by decide
  exact ⟨rfl, rfl, hx, he, reserved_all,
    (compound_agrees_iff sums 0 rfl rfl hx he reserved_all {} {} .int .int).2⟩

/-- **A compound assignment can read its target too late.** Where `x` is
10, what is left of `x = x + { x = 5; 1 }` makes it 11, and what is left
of `x += { x = 5; 1 }` makes it 6. -/
theorem compound_reads_too_late : ∃ c x s s' v u σ' τ', ∃ σ : State sums,
    normalize (.binary {} .int (.compound .add) counter oneAfterReset) none .all = .ok c s ∧
    normalize (.binary {} .int .assign counter (.binary {} .int .add counter oneAfterReset))
      none .all = .ok x s' ∧
    eval sums 0 c σ = some (.ok v, σ') ∧ eval sums 0 x σ = some (.ok u, τ') ∧
    σ'.locals 1 = .int 6 ∧ τ'.locals 1 = .int 11 :=
  ⟨_, _, _, _, _, _, _, _, ⟨fun _ => .int 10, (), []⟩, rfl, rfl, rfl, rfl, rfl, rfl⟩

end Normalize

end LuaBackend
