import LuaBackend.Proofs.Normalize.Scoping.Statements

/-!
# Scopes of lowered loops and switches

A loop whose condition needs statements gets a guard at the top of its
body, and a switch whose case values need statements becomes a chain of
branches. Both read temporaries that are declared before them.
-/

namespace LuaBackend

open Expr List

namespace Normalize.Scoping

open Lowering Obeys

variable {R : ScopeRule} {V B : Var → Prop} {a b n : Nat} {E : List Var} {s : TempSupply}
  {loc : Loc} {type : Ty}
variable {t : Var}
variable {e : Expr} {test : LoopTest} {first : Var} {ls : List Lowering}

theorem source_nil (hvars : e.vars = []) (htidy : R.Tidy e) : Source R V B n e := by
  refine ⟨naming_nil hvars, fun d hd => ?_, htidy⟩
  have hmem := binders_subset hd
  rw [hvars] at hmem
  cases hmem

/-! ## Loops -/

section Loop

variable {cond : Lowering} {body : Option Lowering}

/-- The condition needs no statements. -/
theorem gives_plainLoop (hp : Predicted cond) (hc : WellScoped R cond)
    (hb : ∀ l ∈ body, WellScoped R l) (hhoists : cond.source.hoists = false) (hE : Around E s)
    (hoc : Operand R V B s.next E cond.source) (hfb : ∀ l ∈ body, Fits R V B s.next E l.source) :
    Gives (plainLoop loc test cond body) s fun stmts s' =>
      Replaces R V E s.next s'.next [] stmts := by
  refine ((hc.taken hE hoc).and (hp.value s)).bind ?_
  intro c s₁ ⟨hcond, hquiet⟩
  have hle := hcond.before.le
  have hvalue := hcond.value
  rw [(hquiet hhoists).stmts] at hvalue
  refine (gives_scope hb (hE.mono hle) (fun l hl => Fits.mono (hfb l hl) hle)
    receives_none).bind fun block s₂ hblock => gives_pure ?_
  refine replaces_single (Nat.le_trans hle hblock.1) ?_ rfl
  exact scoped_loop.2 ⟨naming_nil rfl, mono hvalue hblock.1,
    fun _ h => Option.some.inj h ▸ hblock.2⟩

theorem WellScoped.guard (hc : WellScoped R cond) : WellScoped R (.guard loc cond) :=
  .ite (.unary (.paren hc)) (fun _ h => Option.some.inj h ▸ .jump rfl) nofun

/-- The guard stands where its condition does. -/
theorem fits_guard (hoc : Operand R V B n E cond.source) :
    Fits R V B n E (guard loc cond).source := by
  have hparen : Fits R V B n E (.paren loc cond.source.type cond.source) := by
    exact (scoped_one rfl).2 ⟨source_nil rfl ⟨nofun, trivial⟩, hoc.fits⟩
  have hnot : Fits R V B n E
      (.unary loc .bool .not false (.paren loc cond.source.type cond.source)) := by
    refine (scoped_one rfl).2 ⟨source_nil rfl ⟨?_, trivial⟩, hparen⟩
    exact forall_mem_singleton.2 hoc.ignores
  refine scoped_ite.2 ⟨source_nil rfl ⟨?_, trivial⟩, hnot, ?_, nofun⟩
  · exact forall_mem_singleton.2 nofun
  · intro t ht
    rw [← Option.some.inj ht]
    exact (scoped_leaf rfl).2 (source_nil rfl ⟨nofun, trivial⟩)

theorem fits_const {value : Const} : Fits R V B n E (.const loc type value) :=
  (scoped_leaf rfl).2 (source_nil rfl ⟨nofun, trivial⟩)

theorem WellScoped.boolLit {value : Bool} : WellScoped R (.leaf (.boolLit loc value)) :=
  .leaf rfl

theorem WellScoped.localVar {var : Var} : WellScoped R (.leaf (.local loc var)) :=
  .leaf rfl

theorem WellScoped.guardAfterFirst (hc : WellScoped R cond) :
    WellScoped R (.guardAfterFirst loc first cond) :=
  .ite .localVar (fun _ h => Option.some.inj h ▸ .binary .localVar .boolLit)
    fun _ h => Option.some.inj h ▸ .guard hc

/-- A temporary of the loop can be read below its declaration. -/
theorem fits_temp (hreads : Obeys R V n E (.local loc t)) : Fits R V B n E (.local loc t) := by
  obtain ⟨hr, hnames⟩ := scoped_local.1 hreads
  refine scoped_local.2 ⟨hr, hnames, nofun, ?_⟩
  exact ⟨nofun, trivial⟩

/-- The guard of later rounds reads the temporary of the first. -/
theorem fits_guardAfterFirst (hfirst : Fits R V B n E (.local loc first))
    (hoc : Operand R V B n E cond.source) :
    Fits R V B n E (guardAfterFirst loc first cond).source := by
  have hclear : Fits R V B n E
      (.binary loc .bool .assign (.local loc first) (.boolLit loc false)) := by
    refine (scoped_two rfl).2 ⟨source_nil rfl ⟨?_, nofun⟩, hfirst, fits_const⟩
    exact forall_mem_cons.2 ⟨nofun, forall_mem_singleton.2 nofun⟩
  have hguard : Fits R V B n E (guard loc cond).source := fits_guard hoc
  refine scoped_ite.2 ⟨source_nil rfl ⟨?_, trivial⟩, hfirst, ?_, ?_⟩
  · exact forall_mem_singleton.2 nofun
  · intro t ht
    rw [← Option.some.inj ht]
    exact (source_binary ..).symm ▸ hclear
  · exact fun _ h => Option.some.inj h ▸ hguard

/-- An endless loop with a guard at the top of its body. -/
theorem gives_guardedLoop {guard : Lowering} (hg : WellScoped R guard)
    (hb : ∀ l ∈ body, WellScoped R l) (hE : Around E s) (hfg : Fits R V B s.next E guard.source)
    (hd : guard.source.declares = []) (hfb : ∀ l ∈ body, Fits R V B s.next E l.source) :
    Gives (guardedLoop loc guard body) s fun stmts s' =>
      Replaces R V E s.next s'.next [] stmts := by
  refine gives_plainLoop (B := B) (.leaf id) .boolLit (fun l hl => ?_) rfl hE ⟨fits_const, nofun⟩ ?_
  · rw [← Option.some.inj hl]
    refine .block (forall_mem_cons.2 ⟨hg, fun l hl => hb l (Option.mem_toList.1 hl)⟩)
  · intro l hl
    rw [← Option.some.inj hl]
    refine scoped_block.2 ⟨source_nil rfl ⟨nofun, trivial⟩, ?_⟩
    refine (scopedSeq_cons _ _).2 ⟨hfg, ?_⟩
    rw [hd]
    cases body with
    | none => exact scopedSeq_nil
    | some l => exact (scopedSeq_cons _ _).2 ⟨hfb l rfl, scopedSeq_nil⟩

/-- The temporary of the first round is declared before the loop. -/
theorem WellScoped.loop (hp : Predicted cond) (hc : WellScoped R cond)
    (hb : ∀ l ∈ body, WellScoped R l) : WellScoped R (.loop loc test cond body) := by
  refine .ofStmt fun V B E s assignee hE hf _ => ?_
  obtain ⟨hsource, hfc, hfb⟩ := scoped_loop.1 hf
  have hoc := hsource.operand mem_cons_self hfc
  have hfb := Fits.part hfb
  split
  · rename_i hhoists
    exact gives_plainLoop hp hc hb (Bool.not_eq_true' _ ▸ hhoists) hE hoc hfb
  · cases test with
    | before => exact gives_guardedLoop (.guard hc) hb hE (fits_guard hoc) rfl hfb
    | after =>
      refine gives_freshTemp_bind fun hlt => ?_
      have hdecl : Before R V E s.next (s.next + 1)
          [.varDecl loc (nextTemp s .bool) (some (.boolLit loc true))] := by
        refine hE.before_nextTemp hlt fun i hi => ?_
        rw [← Option.some.inj hi]
        exact (scoped_leaf rfl).2 (naming_nil rfl)
      have hfirst : Fits R V B (s.next + 1) (nextTemp s .bool :: E)
          (Lowering.guardAfterFirst loc (nextTemp s .bool) cond).source :=
        fits_guardAfterFirst (fits_temp (hE.obeys_nextTemp hlt)) (hoc.after hdecl)
      refine (gives_guardedLoop (.guardAfterFirst hc) hb (hE.afterTemp hlt) hfirst rfl
        fun l hl => Fits.after (hfb l hl) hdecl).bind fun stmts s₁ hs => gives_pure ?_
      exact (hdecl.append (hs.before nofun)).replaces

end Loop

/-! ## Switches -/

section Switch

variable {subject : Lowering} {cases : List (Case Lowering)} {default : Option Lowering}
  {assignee : Option Expr}

/-- The values of a case, without statements. -/
theorem gives_caseValues {ls : List Lowering} (hp : ∀ l ∈ ls, Predicted l)
    (hls : ∀ l ∈ ls, WellScoped R l) (hE : Around E s)
    (ho : ∀ l ∈ ls, Operand R V B s.next E l.source) (hh : ∀ l ∈ ls, l.source.hoists = false) :
    Gives (caseValues ls) s fun vs s' =>
      s.next ≤ s'.next ∧ ∀ v ∈ vs, Obeys R V s'.next E v := by
  induction ls generalizing s with
  | nil => exact gives_pure ⟨.refl, forall_mem_nil _⟩
  | cons l rest ih =>
    rw [forall_mem_cons] at hp hls ho hh
    refine ((hls.1.taken hE ho.1).and (hp.1.value s)).bind fun h s₁ hr => ?_
    obtain ⟨hl, hquiet⟩ := hr
    have hle := hl.before.le
    have hstmts := (hquiet hh.1).stmts
    have hvalue := hl.value
    rw [hstmts] at hvalue
    rw [hstmts]
    refine (ih hp.2 hls.2 (hE.mono hle) (fun l hl => (ho.2 l hl).mono hle) hh.2).bind ?_
    intro vs s₂ hvs
    refine gives_pure ⟨Nat.le_trans hle hvs.1, forall_mem_cons.2 ⟨?_, hvs.2⟩⟩
    exact mono hvalue hvs.1

/-- The cases of a switch, where each stands. -/
structure CasesFit (R : ScopeRule) (V B : Var → Prop) (n : Nat) (E : List Var)
    (cases : List (Case Lowering)) : Prop where
  values : ∀ c ∈ cases, ∀ v ∈ c.values, Operand R V B n E v.source
  bodies : ∀ c ∈ cases, ∀ l ∈ c.body, Fits R V B n E l.source

theorem CasesFit.mono (h : CasesFit R V B a E cases) (hab : a ≤ b) : CasesFit R V B b E cases :=
  ⟨fun c hc v hv => (h.values c hc v hv).mono hab, fun c hc l hl => Fits.mono (h.bodies c hc l hl) hab⟩

theorem CasesFit.after {stmts : List Expr} (h : CasesFit R V B a E cases)
    (hs : Before R V E a b stmts) : CasesFit R V B b (declared stmts ++ E) cases :=
  ⟨fun c hc v hv => (h.values c hc v hv).after hs,
    fun c hc l hl => Fits.after (h.bodies c hc l hl) hs⟩

theorem casesFit_cons {c : Case Lowering} : CasesFit R V B n E (c :: cases) ↔
    ((∀ v ∈ c.values, Operand R V B n E v.source) ∧ ∀ l ∈ c.body, Fits R V B n E l.source) ∧
      CasesFit R V B n E cases := by
  constructor
  · rintro ⟨hv, hb⟩
    rw [forall_mem_cons] at hv hb
    exact ⟨⟨hv.1, hb.1⟩, hv.2, hb.2⟩
  · rintro ⟨⟨hv, hb⟩, hrest⟩
    exact ⟨forall_mem_cons.2 ⟨hv, hrest.values⟩, forall_mem_cons.2 ⟨hb, hrest.bodies⟩⟩

/-- Each case in the scope of the switch. -/
theorem gives_plainCases : ∀ {cases : List (Case Lowering)},
    (∀ c ∈ cases, ∀ v ∈ c.values, Predicted v) →
    (∀ c ∈ cases, (∀ v ∈ c.values, WellScoped R v) ∧ ∀ l ∈ c.body, WellScoped R l) →
    ∀ {s : TempSupply}, Around E s → CasesFit R V B s.next E cases →
    (∀ c ∈ cases, ∀ v ∈ c.values, v.source.hoists = false) → Receives R V B s.next E assignee →
    Gives (plainCases assignee cases) s fun cs s' => s.next ≤ s'.next ∧
      ∀ c ∈ cs, (∀ v ∈ c.values, Obeys R V s'.next E v) ∧ ∀ b ∈ c.body, Obeys R V s'.next E b
  | [], _, _, _, _, _, _, _ => gives_pure ⟨.refl, nofun⟩
  | ⟨values, body⟩ :: rest, hp, hw, s, hE, hf, hh, hr => by
    rw [forall_mem_cons] at hp hw hh
    rw [casesFit_cons] at hf
    refine (gives_caseValues hp.1 hw.1.1 hE hf.1.1 hh.1).bind fun vs s₁ hvs => ?_
    refine (gives_scope hw.1.2 (hE.mono hvs.1) (fun l hl => Fits.mono (hf.1.2 l hl) hvs.1)
      (hr.mono hvs.1)).bind fun block s₂ hblock => ?_
    have hle := Nat.le_trans hvs.1 hblock.1
    refine (gives_plainCases hp.2 hw.2 (hE.mono hle) (hf.2.mono hle) hh.2 (hr.mono hle)).bind ?_
    intro cs s₃ hcs
    refine gives_pure ⟨Nat.le_trans hle hcs.1, forall_mem_cons.2 ⟨⟨?_, ?_⟩, hcs.2⟩⟩
    · exact fun v hv => mono (hvs.2 v hv) (Nat.le_trans hblock.1 hcs.1)
    · exact fun _ h => Option.some.inj h ▸ mono hblock.2 hcs.1

variable (hs : WellScoped R subject)
  (hc : ∀ c ∈ cases, (∀ v ∈ c.values, WellScoped R v) ∧ ∀ l ∈ c.body, WellScoped R l)
  (hd : ∀ l ∈ default, WellScoped R l) (hE : Around E s)
  (hos : Operand R V B s.next E subject.source) (hfc : CasesFit R V B s.next E cases)
  (hfd : ∀ l ∈ default, Fits R V B s.next E l.source) (hr : Receives R V B s.next E assignee)

include hs hc hd hE hos hfc hfd hr in
/-- The case values need no statements. -/
theorem gives_plainSwitch (hp : ∀ c ∈ cases, ∀ v ∈ c.values, Predicted v)
    (hh : ∀ c ∈ cases, ∀ v ∈ c.values, v.source.hoists = false) :
    Gives (plainSwitch loc subject cases default assignee) s fun stmts s' =>
      Replaces R V E s.next s'.next [] stmts := by
  refine (hs.taken hE hos).bind fun x s₁ hx => (hx.gives_spill hE).bind fun y s₂ hy => ?_
  have hbefore := hy.before
  have hvalue := hy.value
  have hE₂ := hE.after hbefore
  have hr₂ := hr.after hbefore
  refine (gives_plainCases hp hc hE₂ (hfc.after hbefore) hh hr₂).bind fun cs s₃ hcs => ?_
  cases default with
  | none =>
    refine gives_pure ((hbefore.mono .refl hcs.1).snoc ?_ rfl).replaces
    exact scoped_switch.2 ⟨naming_nil rfl, mono hvalue hcs.1, hcs.2, nofun⟩
  | some =>
    refine (gives_scope hd (hE₂.mono hcs.1)
      (fun l hl => Fits.mono (Fits.after (hfd l hl) hbefore) hcs.1) (hr₂.mono hcs.1)).bind ?_
    intro block s₄ hblock
    have hle := Nat.le_trans hcs.1 hblock.1
    refine gives_pure ((hbefore.mono .refl hle).snoc ?_ rfl).replaces
    refine scoped_switch.2 ⟨naming_nil rfl, mono hvalue hle, fun c hmem => ?_, ?_⟩
    · exact ⟨fun v hv => mono ((hcs.2 c hmem).1 v hv) hblock.1,
        fun b hb => mono ((hcs.2 c hmem).2 b hb) hblock.1⟩
    · exact fun _ h => Option.some.inj h ▸ hblock.2

theorem WellScoped.anyEqual (h : ∀ l ∈ ls, WellScoped R l) : WellScoped R (.anyEqual loc t ls) := by
  cases ls with
  | nil => exact .boolLit
  | cons first rest =>
    rw [forall_mem_cons] at h
    exact foldlRecOn rest _ (.binary .localVar h.1) fun cond hcond v hv =>
      .binary hcond (.binary .localVar (h.2 v hv))

theorem fits_equal {v : Expr} (ht : ∀ loc, Fits R V B n E (.local loc t)) (hv : Operand R V B n E v) :
    Fits R V B n E (.binary v.loc .bool .eq (.local v.loc t) v) := by
  refine (scoped_two rfl).2 ⟨source_nil rfl ⟨?_, trivial⟩, ht v.loc, hv.fits⟩
  exact forall_mem_cons.2 ⟨nofun, forall_mem_singleton.2 hv.ignores⟩

/-- The test of a case reads the temporary of the subject. -/
theorem fits_anyEqual (ht : ∀ loc, Fits R V B n E (.local loc t))
    (ho : ∀ l ∈ ls, Operand R V B n E l.source) :
    Fits R V B n E (anyEqual loc t ls).source ∧ (anyEqual loc t ls).source.declares = [] := by
  cases ls with
  | nil => exact ⟨fits_const, rfl⟩
  | cons first rest =>
    rw [forall_mem_cons] at ho
    refine foldlRecOn rest
      (motive := fun all : Lowering => Fits R V B n E all.source ∧ all.source.declares = []) _ ?_ ?_
    · rw [source_binary]
      exact ⟨fits_equal ht ho.1, rfl⟩
    · intro cond hcond v hv
      rw [source_binary, source_binary]
      refine ⟨(scoped_two rfl).2 ⟨source_nil rfl ⟨?_, trivial⟩, hcond.1,
        fits_equal ht (ho.2 v hv)⟩, rfl⟩
      exact forall_mem_cons.2 ⟨hcond.2 ▸ nofun, forall_mem_singleton.2 nofun⟩

theorem WellScoped.branchChain : ∀ {cases : List (Case Lowering)},
      (∀ c ∈ cases, (∀ v ∈ c.values, WellScoped R v) ∧ ∀ l ∈ c.body, WellScoped R l) →
      (∀ l ∈ default, WellScoped R l) →
      ∀ l ∈ branchChain loc type t default cases, WellScoped R l
  | [], _, hd => hd
  | ⟨values, body⟩ :: rest, hc, hd => by
    rw [forall_mem_cons] at hc
    intro l hl
    rw [← Option.some.inj hl]
    refine .ite (.anyEqual hc.1.1) (fun b hb => ?_) (WellScoped.branchChain hc.2 hd)
    rw [← Option.some.inj hb]
    cases body with
    | none => exact .block nofun
    | some b => exact hc.1.2 b rfl

/-- Every branch of the chain is below the temporary. -/
theorem fits_branchChain (ht : ∀ loc, Fits R V B n E (.local loc t)) :
    ∀ {cases : List (Case Lowering)}, CasesFit R V B n E cases →
      (∀ l ∈ default, Fits R V B n E l.source) →
      ∀ l ∈ branchChain loc type t default cases, Fits R V B n E l.source
  | [], _, hd => hd
  | ⟨values, body⟩ :: rest, hc, hd => by
    rw [casesFit_cons] at hc
    intro l hl
    rw [← Option.some.inj hl]
    obtain ⟨hcond, hdeclares⟩ : Fits R V B n E (anyEqual loc t values).source ∧
        (anyEqual loc t values).source.declares = [] := fits_anyEqual ht hc.1.1
    refine scoped_ite.2 ⟨source_nil rfl ⟨?_, trivial⟩, hcond, ?_, ?_⟩
    · exact forall_mem_singleton.2 (hdeclares ▸ nofun)
    · intro b hb
      rw [← Option.some.inj hb]
      cases body with
      | none =>
        exact scoped_block.2 ⟨source_nil rfl ⟨nofun, trivial⟩, scopedSeq_nil⟩
      | some b => exact hc.1.2 b rfl
    · intro f hf
      obtain ⟨l', hl', rfl⟩ := Option.map_eq_some_iff.1 hf
      exact fits_branchChain ht hc.2 hd l' hl'

include hs hc hd hE hos hfc hfd hr in
/-- A chain has a case, and becomes a branch on a temporary. -/
theorem gives_chainedSwitch (hne : cases ≠ []) :
    Gives (chainedSwitch loc type subject cases default assignee) s fun stmts s' =>
      Replaces R V E s.next s'.next [] stmts := by
  refine (hs.taken hE hos).bind fun x s₁ hx => ?_
  have hE₁ := hE.after hx.before
  refine gives_freshTemp_bind fun hlt => ?_
  have hdecl : Before R V E s.next (afterTemp s₁).next
      (x.stmts ++ [.varDecl loc (nextTemp s₁ x.value.type) (some x.value)]) :=
    hx.before.append (hE₁.before_nextTemp hlt fun _ hi => Option.some.inj hi ▸ hx.value)
  have ht (loc' : Loc) : Fits R V B (afterTemp s₁).next
      (declared (x.stmts ++ [.varDecl loc (nextTemp s₁ x.value.type) (some x.value)]) ++ E)
      (.local loc' (nextTemp s₁ x.value.type)) := by
    rw [declared_append]
    exact fits_temp (hE₁.obeys_nextTemp hlt)
  dsimp only
  cases hchain : branchChain loc type (nextTemp s₁ x.value.type) default cases with
  | none => exact gives_pure hdecl.replaces
  | some chain =>
    have hw := WellScoped.branchChain hc hd chain hchain
    have hfits := fits_branchChain ht (hfc.after hdecl) (fun l hl => Fits.after (hfd l hl) hdecl)
      chain hchain
    -- with a case the chain is a branch, which brings nothing into scope
    have hdeclares : chain.source.declares = [] := by
      obtain ⟨c, rest, rfl⟩ := exists_cons_of_ne_nil hne
      cases hchain
      rfl
    refine (hw.stmt (hE.after hdecl) hfits (hr.after hdecl)).bind fun stmts s₂ hstmts => ?_
    rw [hdeclares] at hstmts
    exact gives_pure (hdecl.append (hstmts.before nofun)).replaces

include hs hc hd in
theorem WellScoped.switch (hp : ∀ c ∈ cases, ∀ v ∈ c.values, Predicted v) :
    WellScoped R (.switch loc type subject cases default) := by
  refine .ofStmt fun V B E s assignee hE hf hr => ?_
  obtain ⟨hsource, hfs, hfc, hfd⟩ := scoped_switch.1 hf
  have hos := hsource.operand mem_cons_self hfs
  have hcases : CasesFit R V B s.next E cases := by
    refine ⟨fun c hmem v hv => ?_, fun c hmem l hl => ?_⟩
    · have hcase := mem_map_of_mem (f := fun c : Case Lowering => (⟨c.values.map source,
          c.body.map source⟩ : Case Expr)) hmem
      have hvalue : v.source ∈ c.values.map source := mem_map_of_mem hv
      refine hsource.operand (.tail _ (mem_flatMap.2 ⟨_, hcase, hvalue⟩)) ?_
      exact (hfc _ hcase).1 _ hvalue
    · exact (hfc _ (mem_map_of_mem hmem)).2 _ (Option.mem_map_of_mem _ hl)
  split
  · rename_i hany
    refine gives_chainedSwitch hs hc hd hE hos hcases (Fits.part hfd) hr ?_
    rintro rfl
    cases hany
  · rename_i hany
    refine gives_plainSwitch hs hc hd hE hos hcases (Fits.part hfd) hr hp fun c hmem v hv => ?_
    simp only [any_eq_true, not_exists, not_and, Bool.not_eq_true] at hany
    exact hany c hmem v hv

end Switch

/-- Every way of making a lowering keeps to the rule. -/
theorem WellScoped.compositional (R : ScopeRule) : Compositional Predicted (WellScoped R) where
  known := predicted_lower
  omitted := .leaf rfl
  const _ _ _ := .leaf rfl
  localVar _ _ := .localVar
  typeRef _ _ _ := .leaf rfl
  ident _ _ _ := .leaf rfl
  brk _ := .jump rfl
  cont _ := .jump rfl
  field _ _ _ _ h := .field h
  index _ _ _ _ hb hp := .index hb hp
  paren _ _ _ h := .paren h
  annot _ _ _ _ h := .annot h
  object _ _ _ h := .object h
  array _ _ _ h := .array h
  callMember _ _ _ _ _ _ _ hr ha := .callMember hr ha
  call _ _ _ _ _ hc ha := .call hc ha
  new _ _ _ _ _ h := .new h
  binary _ _ _ _ _ _ hl hr := .binary hl hr
  unary _ _ _ _ _ h := .unary h
  function _ _ _ _ _ h := .function h
  varDecl _ _ _ h := .varDecl h
  block _ _ _ h := .block h
  forIn _ _ _ _ hi hb := .forIn hi hb
  ite _ _ _ _ _ hc ht hf := .ite hc ht hf
  loop _ _ _ _ hp hc hb := .loop hp hc hb
  switch _ _ _ _ _ hs hp hc hd := .switch hs hc hd hp
  ret _ _ h := .ret h
  throw _ _ h := .throw h
  cast _ _ _ _ h := .cast h
  tryCatch _ _ _ _ hb hh := .tryCatch hb hh
  enumParam _ _ _ _ _ h := .enumParam h
  enumIndex _ _ h := .enumIndex h

/-- **Every lowering keeps to every rule of scoping.** -/
theorem wellScoped_lower (R : ScopeRule) (e : Expr) : WellScoped R (lower e) :=
  (WellScoped.compositional R).lower e

end Normalize.Scoping

end LuaBackend
