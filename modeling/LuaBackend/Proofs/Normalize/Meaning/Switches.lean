import LuaBackend.Proofs.Normalize.Meaning.Statements

/-!
# Switches that keep their meaning

A switch whose case values need no statements stays one. Any other becomes
a chain of branches that compare the subject, kept in a temporary, with
the values of one case after the other.
-/

namespace LuaBackend.Normalize.Meaning

open Simulation Lowering List Exec Expr

variable {M : Machine} {S : Setting M} {m mc md : Exec M M.Value} {aim : Option Var}
variable {R R' : UInt32 → Prop} {I K : Known M} {yields : Bool} {σ τ : State M}
variable {loc loc' : Loc} {type : Ty} {d : Bool}
variable {cases : List (Case Lowering)} {default : Option Lowering} {subject : Lowering}
variable {values : List Lowering} {s : TempSupply} {v : Lowering}

def caseSources (cases : List (Case Lowering)) : List (Case Expr) :=
  cases.map fun c => ⟨c.values.map source, c.body.map source⟩

def SimulatesCases (S : Setting M) (cases : List (Case Lowering)) : Prop :=
  ∀ c ∈ cases, (∀ v ∈ c.values, Operand S v ∧ Predicted v) ∧
    SimulatesPart S c.body (evalPart M S.rounds (c.body.map source))

theorem evalEach_sources {rounds : Nat} (values : List Lowering) :
    evalEach M rounds (values.map source) = values.map fun v => eval M rounds v.source := by
  induction values with
  | nil => rfl
  | cons v rest ih => rw [map_cons, evalEach, ih, map_cons]

/-! ## Switches without statements in their case values -/

/-- Its values are read without writing locals, and its body does what the
node does. -/
structure CaseActs (S : Setting M) (yields : Bool) (aim : Option Var) (R : UInt32 → Prop)
    (target : Case Expr) (case : Case Lowering) : Prop where
  values : List.Forall₂ (Quiet S) target.values (case.values.map fun v => eval M S.rounds v.source)
  body : Acts S yields aim R target.body (evalPart M S.rounds (case.body.map source))

/-- The values of a case, taken without statements. -/
theorem gives_caseValues (h : ∀ v ∈ values, Operand S v ∧ Predicted v)
    (hh : ∀ v ∈ values, v.source.hoists = false) (hs : S.first ≤ s.next) :
    Gives (caseValues values) s fun vs s' => s.next ≤ s'.next ∧
      List.Forall₂ (Quiet S) vs (values.map fun v => eval M S.rounds v.source) := by
  induction values generalizing s with
  | nil => exact gives_pure ⟨Nat.le_refl _, .nil⟩
  | cons v rest ih =>
    obtain ⟨⟨hv, hp⟩, hrest⟩ := forall_mem_cons.1 h
    obtain ⟨hhv, hhrest⟩ := forall_mem_cons.1 hh
    refine ((hv s hs).and (hp.value s)).bind fun k s₁ ⟨⟨hle₁, hreal, _, _⟩, hquiet⟩ => ?_
    have hstmts : k.stmts = [] := (hquiet hhv).stmts
    have hread := hreal.quiet (fun y hy => Nat.le_trans hs hy.1) hstmts
    rw [if_pos (isEmpty_iff.2 hstmts)]
    exact (ih hrest hhrest (Nat.le_trans hs hle₁)).bind fun vs s₂ ⟨hle₂, hvs⟩ =>
      gives_pure ⟨Nat.le_trans hle₁ hle₂, .cons hread hvs⟩

theorem gives_plainCases (h : SimulatesCases S cases)
    (hh : ∀ c ∈ cases, ∀ v ∈ c.values, v.source.hoists = false)
    (hy : yields = true → ∀ c ∈ cases, yieldsPart (c.body.map source) = true)
    (hs : S.first ≤ s.next) (hbelow : ∀ v ∈ aim, v.id.toNat < s.next) :
    Gives (plainCases (aim.map (.local loc)) cases) s fun targets s' =>
      s.next ≤ s'.next ∧
        List.Forall₂ (CaseActs S yields aim (Range s.next s'.next)) targets cases := by
  induction cases generalizing s with
  | nil => exact gives_pure ⟨Nat.le_refl _, .nil⟩
  | cons c rest ih =>
    obtain ⟨⟨hvalues, hbody⟩, hrest⟩ := forall_mem_cons.1 h
    obtain ⟨hhv, hhrest⟩ := forall_mem_cons.1 hh
    refine (gives_caseValues hvalues hhv hs).bind fun vs s₁ ⟨hle₁, hvs⟩ => ?_
    refine (gives_scope_acts loc aim hbody (Nat.le_trans hs hle₁) (below_trans hbelow hle₁)).bind
      fun b s₂ ⟨hle₂, hact⟩ => ?_
    refine (ih hrest hhrest (fun hyields => (forall_mem_cons.1 (hy hyields)).2) (by omega)
      (below_trans hbelow (by omega))).bind
      fun targets s₃ ⟨hle₃, htargets⟩ => gives_pure ⟨by omega, .cons ⟨hvs, ?_⟩ ?_⟩
    · exact hact.mono (fun _ hr => hr.mono hle₁ hle₃) fun hyields =>
        (forall_mem_cons.1 (hy hyields)).1
    · refine htargets.imp fun target case hcase => ⟨hcase.values, ?_⟩
      exact hcase.body.mono (fun _ hr => hr.mono (by omega) (Nat.le_refl _)) id

/-- Comparing with values that are read without writing locals. -/
theorem reads_matchAny {subject : M.Value} {vs : List Expr} {ms : List (Exec M M.Value)}
    (h : List.Forall₂ (Quiet S) vs ms) (hg : S.Admits I) (hm : Match S.scope I σ τ) :
    Reads S (matchAny subject ms σ) (matchAny subject (evalEach M S.rounds vs)) τ := by
  induction h generalizing I σ τ with
  | nil => exact reads_pure hm
  | cons hv _ ih =>
    refine (hv I hg σ τ hm).bind fun b σ₁ τ₁ hm₁ => ?_
    by_cases ht : M.truth (M.binary .eq subject b) = true
    · rw [if_pos ht, if_pos ht]
      exact reads_pure hm₁
    · rw [if_neg ht, if_neg ht]
      exact ih (hg.self hm) hm₁

/-- The first case that matches is the same on both sides. -/
theorem agree_select {subject : M.Value} {targets : List (Case Expr)} {default : Option Expr}
    (h : List.Forall₂ (CaseActs S yields aim R) targets cases) (hc : Carries S yields aim R I K)
    (hd : Acts S yields aim R default md) (hm : Match S.scope K σ τ) :
    Agree (select subject md (evalCases M S.rounds (caseSources cases)) σ)
      (select subject (evalPart M S.rounds default) (evalCases M S.rounds targets)) τ
      (fun a _ => Reached S.scope I aim a ()) (Match S.scope K) := by
  induction h generalizing σ τ with
  | nil => exact hd I K hc σ τ hm
  | @cons target case targets cases hcase _ ih =>
    simp only [caseSources, map_cons, evalCases, select, evalEach_sources]
    refine ((reads_matchAny hcase.values hc.before_admits hm).agree hm.known).bind
      (Q := fun r => Ends r (fun a _ => Reached S.scope I aim a ())) ?_
    rintro found _ σ₁ τ₁ ⟨rfl, hm₁⟩
    cases found with
    | true => exact hcase.body I K hc σ₁ τ₁ hm₁
    | false => exact ih hm₁

theorem yieldsCases_iff : yieldsCases (caseSources cases) = true ↔
    ∀ c ∈ cases, yieldsPart (c.body.map source) = true := by
  induction cases with
  | nil => exact ⟨fun _ _ hc => (nomatch hc), fun _ => rfl⟩
  | cons c rest ih =>
    rw [forall_mem_cons, ← ih]
    exact Bool.and_eq_true_iff

def switchYields (cases : List (Case Lowering)) (default : Option Lowering) : Bool :=
  yieldsCases (caseSources cases) && yieldsPart (default.map source)

theorem plainSwitch_eq (assignee : Option Expr) :
    plainSwitch loc subject cases default assignee = (do
      let h ← subject.value
      let k ← spill (!h.value.isPure) h.value
      let targets ← plainCases assignee cases
      let d ← scopeIfAny default assignee
      return h.stmts ++ k.stmts ++ [.switch loc .void k.value targets d]) := by
  cases default with
  | none => rfl
  | some => simp [plainSwitch, scopeIfAny]

theorem runs_plainSwitch (hs : Takes S d subject.value m) (hc : SimulatesCases S cases)
    (hh : ∀ c ∈ cases, ∀ v ∈ c.values, v.source.hoists = false) (hd : SimulatesPart S default md) :
    Runs S S.scope (switchYields cases default) aim
      (plainSwitch loc subject cases default (aim.map (.local loc')))
      (do
        let a ← m
        select a md (evalCases M S.rounds (caseSources cases))) := by
  intro s hfirst hbelow
  have hyields (hy : switchYields cases default = true) := Bool.and_eq_true_iff.1 hy
  rw [plainSwitch_eq]
  refine (hs s hfirst).bind fun h s₁ ⟨hle₁, hreal, hstable, _⟩ => ?_
  have hreserved : Reserved s₁ := Nat.le_trans S.first_le (Nat.le_trans hfirst hle₁)
  refine (gives_spill_realizes hreserved hle₁ hreal hstable).bind fun k s₂ ⟨hle₂, hreal₂, _⟩ => ?_
  refine (gives_plainCases hc hh (fun hy => yieldsCases_iff.1 (hyields hy).1) (by omega)
    (below_trans hbelow (by omega))).bind fun targets s₃ ⟨hle₃, htargets⟩ => ?_
  refine (gives_scopeIfAny hd (by omega) (below_trans hbelow (by omega))).bind
    fun b s₄ ⟨hle₄, hact⟩ => gives_pure ⟨by omega, fun I K hcarries σ τ hm => ?_⟩
  have hcases : List.Forall₂ (CaseActs S (switchYields cases default) aim
      (Range s.next s₄.next)) targets cases :=
    htargets.imp fun target case hcase => ⟨hcase.values,
      hcase.body.mono (fun _ hr => hr.mono (by omega) hle₄) id⟩
  have hdefault : Acts S (switchYields cases default) aim (Range s.next s₄.next) b md :=
    hact.mono (fun _ hr => hr.mono (by omega) (Nat.le_refl _)) fun hy => (hyields hy).2
  exact hreal₂.performs (hcarries.slice (Nat.le_refl _) (by omega) id) hm rfl
    fun a σ₂ τ₂ hm₂ => agree_select hcases hcarries hdefault hm₂

/-- The comparison of the subject with what `x` yields. -/
def compared (subject : M.Value) (x : Exec M M.Value) : Exec M M.Value := do
  return M.binary .eq subject (← x)

def orCompared (subject : M.Value) (cond x : Exec M M.Value) : Exec M M.Value := do
  let a ← cond
  if M.truth a then return a else compared subject x

def anyCompared (subject : M.Value) : List (Exec M M.Value) → Exec M M.Value
  | [] => pure (M.const (.bool false))
  | first :: rest => rest.foldl (orCompared subject) (compared subject first)

theorem truth_foldl_orCompared (subject : M.Value) (xs : List (Exec M M.Value))
    (cond : Exec M M.Value) :
    (do return M.truth (← xs.foldl (orCompared subject) cond)) =
      (do if M.truth (← cond) then return true else matchAny subject xs) := by
  induction xs generalizing cond with
  | nil =>
    refine congrArg (cond >>= ·) (funext fun a => ?_)
    cases M.truth a <;> rfl
  | cons x rest ih =>
    rw [foldl_cons, ih, orCompared, bind_assoc]
    refine congrArg (cond >>= ·) (funext fun a => ?_)
    cases ha : M.truth a with
    | true => simp [ha]
    | false => simp [compared, matchAny]

/-- The condition of a chain holds if the case matches. -/
theorem truth_anyCompared (subject : M.Value) (xs : List (Exec M M.Value)) :
    (do return M.truth (← anyCompared subject xs)) = matchAny subject xs := by
  cases xs with
  | nil => simp [anyCompared, matchAny, M.truth_bool]
  | cons =>
    rw [anyCompared, truth_foldl_orCompared, compared, bind_assoc]
    rfl

section Chains

variable {t : Var} {a : M.Value}

def equalTo (t : Var) (v : Lowering) : Lowering :=
  .binary v.source.loc .bool .eq (.leaf (.local v.source.loc t)) v

def orEqualTo (t : Var) (cond v : Lowering) : Lowering :=
  .binary v.source.loc .bool .or cond (equalTo t v)

section

variable (ht : Range tempBase.toNat S.first t.id) (ha : ∀ l, S.given l → l t.id = a)
include ht ha

theorem simulates_equalTo (hv : Operand S v) :
    Simulates S (equalTo t v) (compared a (eval M S.rounds v.source)) := by
  have htemp : Simulates S (.leaf (.local v.source.loc t)) (pure a) := .temp ht ha
  have heq : BinaryOp.eq.isMutating = false := rfl
  exact .operationNode heq nofun nofun (htemp.value rfl) hv

theorem simulates_orEqualTo {cond : Lowering}
    (hc : Takes S cond.source.designates cond.value mc) (hv : Operand S v) (hp : Predicted v) :
    Simulates S (orEqualTo t cond v) (orCompared a mc (eval M S.rounds v.source)) := by
  have hpredicted : Predicted (equalTo t v) := .binary (.leaf id) hp
  have hyields : (equalTo t v).source.yields = true := by
    rw [equalTo, source_binary]
    rfl
  have heval : Simulates S (equalTo t v) _ := simulates_equalTo ht ha hv
  have hlazy : Takes S false (binaryValue v.source.loc .bool .or cond (equalTo t v))
      (binary .or mc (pure (.local t.id)) (compared a (eval M S.rounds v.source))) :=
    takes_shortCircuit (.inr rfl) hc heval hyields hpredicted
  exact .binaryOfValue rfl hlazy

theorem takes_anyEqual (h : ∀ v ∈ values, Operand S v ∧ Predicted v) :
    Takes S (anyEqual loc t values).source.designates (anyEqual loc t values).value
      (anyCompared a (values.map fun v => eval M S.rounds v.source)) := by
  have hvalued (p : Loc) (op : BinaryOp) (l r : Lowering) :
      (binary p .bool op l r).source.valued = true := by
    rw [source_binary]
    rfl
  cases values with
  | nil =>
    have hfalse : Simulates S (.leaf (.boolLit loc false)) (pure (M.const (.bool false))) :=
      .const rfl rfl
    exact hfalse.value rfl
  | cons first rest =>
    obtain ⟨⟨hfirst, _⟩, hrest⟩ := forall_mem_cons.1 h
    have hcond := (simulates_equalTo ht ha hfirst).value (hvalued _ _ _ _)
    change Takes S (rest.foldl (orEqualTo t) (equalTo t first)).source.designates
      (rest.foldl (orEqualTo t) (equalTo t first)).value _
    rw [map_cons, anyCompared]
    generalize equalTo t first = cond at hcond ⊢
    generalize compared a _ = mc at hcond ⊢
    clear h
    induction rest generalizing cond mc with
    | nil => exact hcond
    | cons v rest ih =>
      obtain ⟨⟨hv, hp⟩, hrest⟩ := forall_mem_cons.1 hrest
      exact ih hrest _ _ ((simulates_orEqualTo ht ha hcond hv hp).value (hvalued _ _ _ _))

end

/-! ## Switches as chains of branches -/

/-- A case without a body runs an empty block. -/
theorem simulates_caseBody {body : Option Lowering} (h : SimulatesPart S body m) :
    Simulates S (body.getD (.block loc .void [])) m := by
  cases body with
  | none =>
    cases h
    have hempty : SimulatesSeq S [] := trivial
    exact .block hempty
  | some => exact h

/-- A chain yields a value where the switch does. -/
theorem yieldsPart_branchChain : yieldsPart ((branchChain loc type t default cases).map source) =
    switchYields cases default := by
  induction cases with
  | nil => rfl
  | cons c rest ih =>
    have hbody : (c.body.getD (.block loc .void [])).source.yields =
        yieldsPart (c.body.map source) := by
      cases c.body with
      | none => rfl
      | some => rfl
    change ((c.body.getD (.block loc .void [])).source.yields &&
      yieldsPart ((branchChain loc type t default rest).map source)) = _
    rw [ih, hbody]
    exact (Bool.and_assoc _ _ _).symm

/-- The chain runs what belongs to the first case that matches. -/
theorem simulates_branchChain (ht : Range tempBase.toNat S.first t.id)
    (ha : ∀ l, S.given l → l t.id = a) (hc : SimulatesCases S cases)
    (hd : SimulatesPart S default md) :
    SimulatesPart S (branchChain loc type t default cases)
      (select a md (evalCases M S.rounds (caseSources cases))) := by
  induction cases with
  | nil => exact hd
  | cons c rest ih =>
    obtain ⟨⟨hvalues, hbody⟩, hrest⟩ := forall_mem_cons.1 hc
    have hbody' : SimulatesPart S (some (c.body.getD (.block loc .void [])))
        (evalPart M S.rounds (c.body.map source)) := simulates_caseBody hbody
    simp only [caseSources, map_cons, evalCases, select, evalEach_sources,
      ← truth_anyCompared, bind_assoc, pure_bind]
    exact Simulates.ite (takes_anyEqual ht ha hvalues) hbody' (ih hrest)

end Chains

def Setting.holding (S : Setting M) (t : Var) (a : M.Value) (h : S.first ≤ t.id.toNat) :
    Setting M :=
  { S with
    first := t.id.toNat + 1
    first_le := Nat.le_trans S.first_le (Nat.le_succ_of_le h)
    given := fun l => S.given l ∧ l t.id = a
    given_rests := by
      have hfirst := S.first_le
      refine Rests.and (S.given_rests.mono fun y hy => ⟨hy.1, ?_⟩) (rests_local ⟨?_, ?_⟩)
      · have := hy.2
        omega
      · omega
      · exact Nat.lt_succ_self _ }

/-- This is known until the temporary is used up. -/
theorem Carries.holding {t : Var} {a : M.Value} {h : S.first ≤ t.id.toNat}
    (hc : Carries S yields aim R I K) (hR : ∀ y, R' y → R y) (ht : ¬ R' t.id)
    (haim : ∀ v ∈ aim, t.id ≠ v.id) :
    Carries (S.holding t a h) yields aim R' (fun l => I l ∧ l t.id = a)
      (fun l => K l ∧ l t.id = a) := by
  have hkept : S.Keeps R' t.id := Setting.keeps_temp (Nat.le_trans S.first_le h) ht
  refine ⟨fun l hl => ⟨hc.admits l hl.1, hl.2⟩, ?_, ?_, fun l hl => ⟨hc.before_le l hl.1, hl.2⟩,
    fun l hl => hc.ready l hl.1⟩
  · exact Rests.and (hc.rests.mono fun y hy => ⟨hy.1.mono hR, hy.2⟩) (rests_local ⟨hkept, haim⟩)
  · exact Rests.and (hc.before_rests.mono fun y hy => hy.mono hR) (rests_local hkept)

theorem chainedSwitch_eq (assignee : Option Expr) :
    chainedSwitch loc type subject cases default assignee = (do
      let h ← subject.value
      let t ← freshTemp h.value.type
      let stmts ← partStmts (branchChain loc type t default cases) assignee
      return h.stmts ++ [.varDecl loc t (some h.value)] ++ stmts) := by
  unfold chainedSwitch
  refine congrArg (subject.value >>= ·) (funext fun h => ?_)
  refine congrArg (freshTemp h.value.type >>= ·) (funext fun t => ?_)
  cases branchChain loc type t default cases with
  | none => simp [partStmts]
  | some => rfl

/-- The chain runs where the temporary holds the subject. -/
theorem runs_chainedSwitch (hs : Takes S d subject.value m)
    (hc : ∀ t a h, SimulatesCases (S.holding t a h) cases)
    (hd : ∀ t a h, SimulatesPart (S.holding t a h) default md) :
    Runs S S.scope (switchYields cases default) aim
      (chainedSwitch loc type subject cases default (aim.map (.local loc')))
      (do
        let a ← m
        select a md (evalCases M S.rounds (caseSources cases))) := by
  intro s hfirst hbelow
  rw [chainedSwitch_eq]
  refine (hs s hfirst).bind fun h s₁ ⟨hle₁, hreal, _, _⟩ => ?_
  refine gives_freshTemp_next.bind fun t s₂ ⟨hid, hs₂⟩ => ?_
  have hlow := S.first_le
  have ht : S.first ≤ t.id.toNat := by omega
  have hbelow₂ : ∀ v ∈ aim, v.id.toNat < s₂.next := below_trans hbelow (by omega)
  -- the statements of the chain are the same whatever the temporary will hold
  have hchain (a : M.Value) : SimulatesPart (S.holding t a ht)
      (branchChain loc type t default cases)
      (select a md (evalCases M S.rounds (caseSources cases))) :=
    have hgiven : ∀ l, (S.holding t a ht).given l → l t.id = a := fun _ hl => hl.2
    simulates_branchChain ⟨Nat.le_trans hlow ht, Nat.lt_succ_self _⟩ hgiven (hc t a ht) (hd t a ht)
  have hfirst₂ (a : M.Value) : (S.holding t a ht).first ≤ s₂.next :=
    Nat.le_of_eq (by rw [hs₂, ← hid]; rfl)
  have : Nonempty M.Value := ⟨M.null⟩
  have hstmts := Gives.forall fun a => runs_partStmts loc' aim (hchain a) s₂ (hfirst₂ a) hbelow₂
  refine hstmts.bind fun stmts s₃ hperforms => ?_
  have hle₃ : s₂.next ≤ s₃.next := (hperforms M.null).1
  refine gives_pure ⟨by omega, fun I K hcarries σ τ hm => ?_⟩
  have htemp : tempBase.toNat ≤ t.id.toNat := Nat.le_trans hlow ht
  have hK : Rests K (S.Keeps fun y => Range s.next s₁.next y ∨ y = t.id) :=
    hcarries.before_rests.mono fun _ hy => hy.mono fun _ hr => .of_or_next hr hid hle₁ (by omega)
  rw [run_append]
  refine (hreal.declares htemp hcarries.before_admits hK hm).bind
    (Q := fun r => Ends r (Reached S.scope I aim)) ?_
  rintro a _ σ₂ τ₂ ⟨hta, hm₂⟩
  have haim : ∀ v ∈ aim, t.id ≠ v.id := fun v hv heq => by
    have := hbelow v hv
    rw [← heq] at this
    omega
  have hyields : switchYields cases default = yieldsPart
      ((branchChain loc type t default cases).map source) :=
    yieldsPart_branchChain.symm
  have hholding : Carries (S.holding t a ht) _ aim (Range s₂.next s₃.next) _ _ :=
    hcarries.holding (fun _ hr => hr.mono (by omega) (Nat.le_refl _))
      (fun hr => by have := hr.1; omega) haim
  rw [hyields] at hholding
  have hrun := (hperforms a).2 _ _ hholding σ₂ τ₂ (hm₂.known_mono ⟨hm₂.known, hta⟩)
  refine (Agree.mono hrun fun _ _ _ _ hr => ?_).exit_mono fun _ _ hj => hj.known_mono hj.known.1
  exact ⟨hr.1, hr.2.known_mono hr.2.known.1⟩

theorem Simulates.switch (hs : Takes S subject.source.designates subject.value m)
    (hc : SimulatesCases S cases) (hd : SimulatesPart S default md)
    (hc' : ∀ t a h, SimulatesCases (S.holding t a h) cases)
    (hd' : ∀ t a h, SimulatesPart (S.holding t a h) default md) :
    Simulates S (.switch loc type subject cases default) (do
        let a ← m
        select a md (evalCases M S.rounds (caseSources cases))) := by
  refine .ofBlockLike rfl id rfl fun loc' aim => ?_
  by_cases hh : (cases.any fun c => c.values.any fun v => v.source.hoists) = true
  · rw [if_pos hh]
    exact runs_chainedSwitch hs hc' hd'
  · rw [if_neg hh]
    refine runs_plainSwitch hs hc (fun c hmem v hv => ?_) hd
    simp only [any_eq_true, not_exists, not_and, Bool.not_eq_true] at hh
    exact hh c hmem v hv

end LuaBackend.Normalize.Meaning
