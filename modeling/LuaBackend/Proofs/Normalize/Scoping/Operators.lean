import LuaBackend.Proofs.Normalize.Scoping.Values

/-!
# Scopes of lowered operators

Assignments, operators that evaluate their right side on a condition, and
steps. An assignment of a block stores into its left side from inside the
block, for which the tree has to be tidy.
-/

namespace LuaBackend

open Expr List Option

namespace Normalize.Scoping

open Lowering Obeys

variable {R : ScopeRule} {V B : Var → Prop} {a b n : Nat} {E : List Var} {s : TempSupply}
  {loc : Loc} {type : Ty}

theorem declares_of_bare_isBlockLike {e : Expr} (h : e.bare.isBlockLike = true) :
    e.declares = [] := by
  unfold Expr.declares
  split
  · rename_i heq
    rw [heq] at h
    exact nomatch h
  · rfl

/-- An optional part, in a scope of its own. -/
theorem gives_scope {part : Option Lowering} {assignee : Option Expr}
    (h : ∀ l ∈ part, WellScoped R l) (hE : Around E s)
    (hf : ∀ l ∈ part, Fits R V B s.next E l.source) (hr : Receives R V B s.next E assignee) :
    Gives (scope part assignee) s fun block s' =>
      s.next ≤ s'.next ∧ Obeys R V s'.next E block := by
  cases part with
  | none =>
    exact gives_pure ⟨Nat.le_refl _, scoped_block.2 ⟨naming_nil rfl, scopedSeq_nil⟩⟩
  | some l =>
    refine ((h l rfl).body hE (hf l rfl) hr).bind fun stmts s₁ hs => gives_pure ⟨hs.1, ?_⟩
    exact scoped_block.2 ⟨naming_nil rfl, hs.2⟩

/-- Nothing that may be declared matters for a temporary. -/
theorem receives_nextTemp (hE : Around E s) (hs : s.next < UInt32.size) :
    Receives R V B (s.next + 1) (nextTemp s type :: E) (some (.local loc (nextTemp s type))) := by
  intro p hp
  rw [← some.inj hp]
  refine ⟨hE.obeys_nextTemp hs, ?_⟩
  refine ⟨fun v hv d hd _ => apart_of_isTemp_ne ?_, fun _ hc => nomatch hc⟩
  rw [mem_singleton.1 hv, hd, isTemp_nextTemp hE.reserved hs]
  decide

section Assignment

variable {op : BinaryOp} {lhs rhs : Lowering}

section

variable (hl : WellScoped R lhs) (hr : WellScoped R rhs)
include hl hr

/-- The block names nothing of the place in its declarations, so its ends
may store into it. -/
theorem gives_blockAssignment (hE : Around E s)
    (hf : Fits R V B s.next E (.binary loc type .assign lhs.source rhs.source))
    (hblock : rhs.source.bare.isBlockLike = true) :
    Gives (do
      let place ← lhs.target .unstable
      let stmts ← rhs.stmt (some place.value)
      return ⟨place.stmts ++ stmts, place.value⟩ : Norm Hoisted) s fun h s' =>
        Leaves R V E s.next s'.next h := by
  obtain ⟨hol, hor⟩ := operand_pair hf rfl rfl rfl
  have htidy : Names (fun v => Binds (fun d => R.apart d v) rhs.source) lhs.source :=
    ((scoped_two rfl).1 hf).1.tidy.2 hblock
  -- the left side names variables for which no declaration of the right side matters
  let V' : Var → Prop := fun v => V v ∧ Binds (fun d => R.apart d v) rhs.source
  have hfl : Fits R V' B s.next E lhs.source := by
    refine (Scoped.and hol.fits htidy).mono fun m hm => ⟨fun v hv => ?_, hm.1.binds, hm.1.tidy⟩
    exact ⟨(hm.1.names v hv).1, fun ht => ⟨(hm.1.names v hv).2 ht, hm.2 v hv⟩⟩
  have hforget {m : Nat} {v : Var} (hv : Known V' m v) : Known V m v :=
    ⟨hv.1, fun ht => (hv.2 ht).1⟩
  refine (hl.target .unstable hE hfl hol.ignores).bind fun place s₁ hplace => ?_
  have hbefore : Before R V E s.next s₁.next place.stmts :=
    ⟨hplace.before.le, hplace.before.run.mono fun _ hm v hv => hforget (hm v hv), hplace.before.new⟩
  have hvalue : Obeys R V s₁.next (declared place.stmts ++ E) place.value :=
    Scoped.mono hplace.value fun _ hm v hv => hforget (hm v hv)
  -- the right side declares variables that do not matter for what the left side names
  let B' : Var → Prop := fun d => ∀ v, V' v → R.apart d v
  have hfr : Fits R V B' s₁.next (declared place.stmts ++ E) rhs.source := by
    have hbinds : Throughout (fun m => ∀ v, V' v → ∀ d ∈ m.binders, R.apart d v) rhs.source :=
      throughout_forall fun v => throughout_forall_imp fun hv => hv.2
    refine (Scoped.and (hor.after hbefore).fits hbinds).mono fun m hm => ?_
    exact ⟨hm.1.names, fun d hd => ⟨(hm.1.binds d hd).1, fun v hv => hm.2 v hv d hd⟩, hm.1.tidy⟩
  have hreceives : Receives R V B' s₁.next (declared place.stmts ++ E) (some place.value) := by
    intro p hp
    rw [← some.inj hp]
    refine ⟨hvalue, (known hplace.value).mono fun v hv d hd hB => ?_⟩
    cases ht : v.isTemp with
    | true => exact apart_of_isTemp_ne (by rw [hd, ht]; decide)
    | false => exact hB v (hv.2 ht)
  refine (hr.stmt (hE.after hbefore) hfr hreceives).bind fun stmts s₂ hs => gives_pure ?_
  rw [declares_of_bare_isBlockLike hblock] at hs
  have hstmts := hs.before fun _ hd => nomatch hd
  refine ⟨hbefore.append hstmts, ?_, hplace.plain⟩
  rw [declared_append, append_assoc]
  exact after hvalue hstmts

/-- The value of an assignment is its place. -/
theorem valueScoped_assignment :
    ValueScoped R (.binary loc type op lhs.source rhs.source) (assignment loc type op lhs rhs) := by
  intro V B E s hE hf _
  unfold assignment
  split
  · rename_i hcond
    obtain ⟨hop, hblock⟩ := Bool.and_eq_true_iff.1 hcond
    obtain rfl : op = .assign := of_decide_eq_true hop
    exact gives_blockAssignment hl hr hE hf hblock
  · obtain ⟨hol, hor⟩ := operand_pair hf rfl rfl rfl
    refine (hl.target _ hE hol.fits hol.ignores).bind fun place s₁ hplace => ?_
    refine (hr.taken (hE.after hplace.before) (hor.after hplace.before)).bind fun h s₂ hh => ?_
    have hplace' := after hplace.value hh.before
    have hvalue := hh.value
    rw [← append_assoc, ← declared_append] at hplace' hvalue
    have hassign : Obeys R V s₂.next (declared (place.stmts ++ h.stmts) ++ E)
        (.binary loc type op place.value h.value) := obeys_assign hplace' hvalue
    refine gives_pure ⟨(hplace.before.append hh.before).snoc hassign rfl, ?_, hplace.plain⟩
    rw [declared_append]
    exact hplace'

theorem stmtScoped_assign :
    StmtScoped R (.binary loc type op lhs.source rhs.source) (assignStmt loc type op lhs rhs) := by
  intro V B E s assignee hE hf hreceives
  refine (valueScoped_assignment hl hr hE hf fun _ hd => nomatch hd).bind fun h s₁ hh => ?_
  cases assignee with
  | some place =>
    refine gives_pure (hh.before.snoc ?_ rfl).replaces
    exact obeys_assign (after (hreceives place rfl).1 hh.before) hh.value
  | none => exact gives_pure hh.before.replaces

end

end Assignment

/-! ## Other operators -/

section Binary

variable {op : BinaryOp} {lhs rhs : Lowering}

theorem obeys_local_not (hE : Around E s) (hs : s.next < UInt32.size) :
    Obeys R V (s.next + 1) (nextTemp s type :: E)
      (if op = .or then .mkUnary loc .not false (.local loc (nextTemp s type))
        else .local loc (nextTemp s type)) := by
  split
  · exact (scoped_one rfl).2 ⟨naming_nil rfl, hE.obeys_nextTemp hs⟩
  · exact hE.obeys_nextTemp hs

/-- The right side goes into a branch that may replace the value. -/
theorem gives_conditional {h : Hoisted} {c : Var → Expr} {s₁ : TempSupply}
    (hh : Leaves R V E s.next s₁.next h) (hE : Around E s) (hr : WellScoped R rhs)
    (hor : Operand R V B s₁.next (declared h.stmts ++ E) rhs.source)
    (hc : s₁.next < UInt32.size → Obeys R V (s₁.next + 1)
      (nextTemp s₁ type :: (declared h.stmts ++ E)) (c (nextTemp s₁ type))) :
    Gives (do
        let t ← freshTemp type
        let stmts ← scope (some rhs) (some (.local loc t))
        return ⟨h.stmts ++ [.varDecl loc t (some h.value), .ite loc .void (c t) (some stmts) none],
          .local loc t⟩) s₁ fun h s' => Leaves R V E s.next s'.next h := by
  have hE₁ := hE.after hh.before
  refine gives_freshTemp_bind fun hlt => ?_
  have hdecl : Before R V (declared h.stmts ++ E) s₁.next (s₁.next + 1)
      [.varDecl loc (nextTemp s₁ type) (some h.value)] :=
    hE₁.before_nextTemp hlt fun _ hi => some.inj hi ▸ hh.value
  refine (gives_scope (fun l hmem => some.inj hmem ▸ hr) (hE₁.afterTemp hlt)
    (fun l hmem => some.inj hmem ▸ Fits.after hor.fits hdecl)
    (receives_nextTemp hE₁ hlt)).bind fun body s₂ hb => gives_pure ?_
  have hite : Obeys R V s₂.next (nextTemp s₁ type :: (declared h.stmts ++ E))
      (.ite loc .void (c (nextTemp s₁ type)) (some body) none) :=
    scoped_ite.2 ⟨naming_nil rfl, mono (hc hlt) hb.1, fun _ ht => some.inj ht ▸ hb.2, nofun⟩
  refine ⟨hh.before.append ((hdecl.mono .refl hb.1).snoc hite rfl), ?_, rfl⟩
  rw [declared_append]
  exact mono (hE₁.obeys_nextTemp hlt) hb.1

section

variable (hl : WellScoped R lhs) (hr : WellScoped R rhs)
include hl hr

/-- The right side is guarded if it needs statements. -/
theorem valueScoped_shortCircuit : ValueScoped R (.binary loc type op lhs.source rhs.source)
      (shortCircuit loc type op lhs rhs) := by
  intro V B E s hE hf _
  obtain ⟨hol, hor⟩ := operand_pair hf rfl rfl rfl
  refine (hl.taken hE hol).bind fun h s₁ hh => ?_
  have hE₁ := hE.after hh.before
  have hor₁ := hor.after hh.before
  split
  · exact gives_conditional hh hE hr hor₁ (obeys_local_not hE₁)
  · refine (hr.taken hE₁ hor₁).bind fun r s₂ hr' => gives_pure ?_
    have hx := after hh.value hr'.before
    have hy := hr'.value
    rw [← append_assoc, ← declared_append] at hx hy
    exact ⟨hh.before.append hr'.before, (scoped_two rfl).2 ⟨naming_nil rfl, hx, hy⟩, rfl⟩

theorem valueScoped_nullCoalesce :
    ValueScoped R (.binary loc type op lhs.source rhs.source) (nullCoalesce loc type lhs rhs) := by
  intro V B E s hE hf _
  obtain ⟨hol, hor⟩ := operand_pair hf rfl rfl rfl
  refine (hl.taken hE hol).bind fun h s₁ hh => ?_
  refine gives_conditional (c := fun t => .mkBinary loc .eq (.local loc t) (.nullLit loc)) hh hE
    hr (hor.after hh.before) fun hlt => ?_
  refine (scoped_two rfl).2 ⟨naming_nil rfl, (hE.after hh.before).obeys_nextTemp hlt, ?_⟩
  exact (scoped_leaf rfl).2 (naming_nil rfl)

theorem valueScoped_operation :
    ValueScoped R (.binary loc type op lhs.source rhs.source) (operation loc type op lhs rhs) := by
  intro V B E s hE hf _
  obtain ⟨hol, hor⟩ := operand_pair hf rfl rfl rfl
  refine (gives_operandPair_leaves hl hr hE hol hor).bind fun ⟨stmts, x, y⟩ s₁ h => gives_pure ?_
  have hobeys := h.keeps
  simp only [forall_mem_cons] at hobeys
  exact ⟨h.before, (scoped_two rfl).2 ⟨naming_nil rfl, hobeys.1, hobeys.2.1⟩, rfl⟩

theorem valueScoped_binary : ValueScoped R (.binary loc type op lhs.source rhs.source)
      (binaryValue loc type op lhs rhs) := by
  unfold binaryValue
  split
  · exact valueScoped_assignment hl hr
  · exact valueScoped_assignment hl hr
  · exact valueScoped_nullCoalesce hl hr
  · exact valueScoped_shortCircuit hl hr
  · exact valueScoped_shortCircuit hl hr
  · exact valueScoped_operation hl hr

theorem WellScoped.binary : WellScoped R (.binary loc type op lhs rhs) := by
  have hv : ValueScoped R (.binary loc type op lhs.source rhs.source)
      (binaryValue loc type op lhs rhs) := valueScoped_binary hl hr
  unfold Lowering.binary
  split
  · exact ⟨hv, fun _ => hv, stmtScoped_assign hl hr, (stmtScoped_assign hl hr).body⟩
  · exact .ofValue rfl hv

end

end Binary

section Unary

variable {op : UnaryOp} {isPost : Bool} {operand : Lowering}

theorem operand_unary (hf : Fits R V B n E (.unary loc type op isPost operand.source)) :
    Operand R V B n E operand.source :=
  Fits.operand hf rfl rfl mem_cons_self

/-- The change that a step makes to its place. -/
theorem obeys_change {place : Expr} (loc : Loc) (op : UnaryOp) (h : Obeys R V n E place) :
    Obeys R V n E (.binary loc place.type (.compound op.stepOp) place (.intLit loc 1)) :=
  (scoped_two rfl).2 ⟨naming_nil rfl, h, (scoped_leaf rfl).2 (naming_nil rfl)⟩

section

variable (h : WellScoped R operand)
include h

theorem gives_step (hE : Around E s) (ho : Operand R V B s.next E operand.source) :
    Gives (step loc op operand) s fun r s' => Leaves R V E s.next s'.next r := by
  refine (h.target .impure hE ho.fits ho.ignores).bind fun place s₁ hp => gives_pure ?_
  have hbefore := hp.before.snoc (obeys_change loc op hp.value) rfl
  refine ⟨hbefore, ?_, hp.plain⟩
  rw [declared_append]
  exact hp.value

/-- The old value is kept in a temporary. -/
theorem gives_stepAfter (hE : Around E s) (ho : Operand R V B s.next E operand.source) :
    Gives (stepAfter loc type op operand) s fun r s' =>
      Leaves R V E s.next s'.next r := by
  refine (h.target .impure hE ho.fits ho.ignores).bind fun place s₁ hp => ?_
  have hE₁ := hE.after hp.before
  refine gives_freshTemp_bind fun hlt => ?_
  have hdecl : Before R V (declared place.stmts ++ E) s₁.next (s₁.next + 1)
      [.varDecl loc (nextTemp s₁ type) (some place.value)] :=
    hE₁.before_nextTemp hlt fun _ hi => some.inj hi ▸ hp.value
  have hplace := after hp.value hdecl
  have hbefore := hp.before.append (hdecl.snoc (obeys_change loc op hplace) rfl)
  refine gives_pure ⟨hbefore, ?_, rfl⟩
  rw [declared_append]
  exact hE₁.obeys_nextTemp hlt

theorem valueScoped_unary : ValueScoped R (.unary loc type op isPost operand.source)
      (unaryValue loc type op isPost operand) := by
  intro V B E s hE hf hd
  unfold unaryValue
  split
  · split
    · exact gives_stepAfter h hE (operand_unary hf)
    · exact gives_step h hE (operand_unary hf)
  · exact valueScoped_around (f := .mkUnary loc op isPost) h (fun hf _ => operand_unary hf)
      (fun hx => (scoped_one rfl).2 ⟨naming_nil rfl, hx⟩) (fun _ => rfl) hE hf hd

theorem stmtScoped_unary : StmtScoped R (.unary loc type op isPost operand.source)
      (unaryStmt loc type op isPost operand) := by
  intro V B E s assignee hE hf hr
  unfold unaryStmt
  split
  · refine (gives_step h hE (operand_unary hf)).bind fun r s₁ hs => gives_pure ?_
    exact hs.before.replaces
  · exact stmtScoped_storeOrDrop rfl (valueScoped_unary h) hE hf hr

theorem WellScoped.unary : WellScoped R (.unary loc type op isPost operand) where
  value := valueScoped_unary h
  target _ := valueScoped_unary h
  stmt := stmtScoped_unary h
  body := (stmtScoped_unary h).body

end

end Unary

end Normalize.Scoping

end LuaBackend
