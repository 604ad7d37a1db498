import LuaBackend.Proofs.Normalize.Meaning.Loops
import LuaBackend.Proofs.Normalize.Meaning.Switches

/-!
# Normalization keeps the meaning of trees

A lowering is faithful if in every setting that fits its node it does what
the node does. Each way of making a lowering keeps this, so what
normalization makes of a tree ends like the tree: with a value, or with
the same jump, after the same events, in the same world, and with the same
locals in scope.
-/

namespace LuaBackend.Normalize.Meaning

open Simulation Lowering List Expr Option Bool

variable {M : Machine} {S : Setting M} {Γ : Scope}
variable {e : Expr} {v : Var} {y : UInt32}

def Setting.Allows (S : Setting M) (e : Expr) : Prop :=
  ∀ y, e.avoids y = false → S.written y = true

theorem Setting.Allows.child {c : Expr} (h : S.Allows e) (hc : c ∈ e.children) : S.Allows c := by
  intro y hy
  refine h y ?_
  cases he : e.avoids y with
  | false => rfl
  | true => exact nomatch hy.symm.trans (((avoids_iff y e).1 he).2 c hc)

theorem Setting.Allows.written (h : S.Allows e) (hy : e.writesTo y = true) :
    S.written y = true := by
  refine h y ?_
  cases he : e.avoids y with
  | false => rfl
  | true => exact nomatch hy.symm.trans ((avoids_iff y e).1 he).1

/-- A tree that avoids a local is allowed where it is spared. -/
theorem Setting.Allows.sparing (h : S.Allows e) (hy : e.avoids y = true) :
    (S.sparing y).Allows e := by
  intro z hz
  have hne : z ≠ y := by
    rintro rfl
    exact nomatch hz.symm.trans hy
  simp [Setting.sparing, Scope.without, hne, h z hz]

theorem targetVar_eq_some (h : e.targetVar = some v) : ∃ loc, e.bare = .local loc v := by
  unfold targetVar at h
  split at h
  · rename_i loc var hbare
    exact ⟨loc, some.inj h ▸ hbare⟩
  · cases h

theorem not_isTemp_iff : v.isTemp = false ↔ v.id.toNat < tempBase.toNat := by
  rw [Var.isTemp, decide_eq_false_iff_not, UInt32.le_iff_toNat_le, Nat.not_le]

/-- A tree that names no temporaries writes none. -/
theorem avoids_of_tempFree (hy : tempBase.toNat ≤ y.toNat) (e : Expr) :
    e.TempFree → e.avoids y = true := by
  have hne {v : Var} (hv : v.isTemp = false) : decide (v.id = y) = false := by
    refine decide_eq_false ?_
    rintro rfl
    have := not_isTemp_iff.1 hv
    omega
  have htarget {t : Expr} (ht : t.TempFree) : t.targetVar.any (fun v => decide (v.id = y)) = false := by
    cases hv : t.targetVar with
    | none => rfl
    | some v =>
      obtain ⟨loc, hbare⟩ := targetVar_eq_some hv
      have hfree := ht.bare
      rw [hbare] at hfree
      exact hne (hfree.vars v (.head _))
  induction e using induction_on_children with
  | step e ih =>
  intro hfree
  refine (avoids_iff y e).2 ⟨?_, fun c hc => ih c hc (hfree.child hc)⟩
  cases e with
  | binary _ _ =>
    rw [writesTo, htarget (hfree.child (.head _)), Bool.and_false]
  | unary _ _ op _ =>
    rw [writesTo, htarget (hfree.child (.head _)), Bool.and_false]
  | varDecl _ v _ => exact hne (hfree.vars v (.head _))
  | forIn _ v _ _ => exact hne (hfree.vars v (.head _))
  | tryCatch _ _ _ =>
    refine any_eq_false.2 fun h hh => ?_
    rw [hne (hfree.vars h.var (mem_map_of_mem hh))]
    exact Bool.false_ne_true
  | _ => rfl

theorem fitOperand_map {part : Option Lowering} (h : fitOperand Γ (part.map source)) :
    ∀ l ∈ part, l.source.valued = true ∧ l.source.fit Γ = true := by
  rintro l rfl
  exact and_eq_true_iff.1 h

theorem fitOperands_iff {es : List Expr} :
    fitOperands Γ es = true ↔ ∀ e ∈ es, e.valued = true ∧ e.fit Γ = true := by
  induction es with
  | nil => exact ⟨nofun, fun _ => rfl⟩
  | cons e rest ih =>
    rw [fitOperands, and_eq_true, and_eq_true, forall_mem_cons, ih]

theorem fitOperands_map {ls : List Lowering} (h : fitOperands Γ (ls.map source)) :
    ∀ l ∈ ls, l.source.valued = true ∧ l.source.fit Γ = true :=
  forall_mem_map.1 (fitOperands_iff.1 h)

theorem fitFields_iff {fields : List (FieldInit Expr)} :
    fitFields Γ fields = true ↔ ∀ f ∈ fields, f.value.valued = true ∧ f.value.fit Γ = true := by
  induction fields with
  | nil => exact ⟨nofun, fun _ => rfl⟩
  | cons f rest ih =>
    rw [fitFields, and_eq_true, and_eq_true, forall_mem_cons, ih]

theorem fitCases_iff {cases : List (Case Expr)} : fitCases Γ cases = true ↔
    ∀ c ∈ cases, fitOperands Γ c.values = true ∧ fitPart Γ c.body = true := by
  induction cases with
  | nil => exact ⟨nofun, fun _ => rfl⟩
  | cons c rest ih =>
    rw [fitCases, and_eq_true, and_eq_true, forall_mem_cons, ih]

theorem fitHandlers_iff {handlers : List (Handler Expr)} :
    fitHandlers Γ handlers = true ↔ ∀ h ∈ handlers,
      h.var.isTemp = false ∧ fitPart (Γ.bind h.var.id) h.body = true := by
  induction handlers with
  | nil => exact ⟨nofun, fun _ => rfl⟩
  | cons h rest ih =>
    rw [fitHandlers, and_eq_true, and_eq_true, not_eq_true', forall_mem_cons, ih]

theorem low_bind (h : Γ.Low) (hv : v.isTemp = false) : (Γ.bind v.id).Low := by
  intro y hy
  rcases or_eq_true_iff.1 hy with heq | hΓ
  · rw [of_decide_eq_true heq]
    exact not_isTemp_iff.1 hv
  · exact h y hΓ

/-- What a node brings into scope is a local of the program. -/
theorem low_after (h : Γ.Low) (e : Expr) (hf : e.fit Γ = true) : (Γ.after e).Low := by
  induction e using bare.induct with
  | case1 loc type inner ih => exact ih hf
  | case2 loc type name inner ih => exact ih hf
  | case3 e hparen hannot =>
    cases e with
    | paren => exact (hparen _ _ _ rfl).elim
    | annot => exact (hannot _ _ _ _ rfl).elim
    | varDecl =>
      simp only [fit, and_eq_true, not_eq_true'] at hf
      exact low_bind h hf.1
    | _ => exact h

/-- A place that is a local needs nothing evaluated. -/
theorem evalPlace_of_bare {rounds : Nat} {loc : Loc} : ∀ e : Expr,
    e.bare = .local loc v → evalPlace M rounds e = pure (.local v.id)
  | .paren _ _ inner, h => evalPlace_of_bare inner h
  | .annot _ _ _ inner, h => evalPlace_of_bare inner h
  | .local _ _, h => by
    cases h
    rfl

/-- Wherever its node fits, the lowering does what the node does. -/
structure Faithful (M : Machine) (l : Lowering) : Prop where
  place : IsPlace l
  simulates : ∀ S : Setting M, l.source.fit S.scope = true → S.Allows l.source →
    Simulates S l (eval M S.rounds l.source)

namespace Faithful

variable {l : Lowering}
variable {args : List Lowering} {body : Option Lowering}
variable {ref : MemberRef} {receiver : Option Lowering} {cond : Lowering}
variable {cases : List (Case Lowering)}
variable {loc : Loc} {type : Ty}

/-- A part that is wanted for its value. -/
theorem operand (h : Faithful M l) (hf : l.source.valued = true ∧ l.source.fit S.scope = true)
    (ha : S.Allows l.source) : Operand S l := (h.simulates S hf.2 ha).value hf.1

theorem part {part : Option Lowering} (h : ∀ l ∈ part, Faithful M l)
    (hf : fitPart S.scope (part.map source) = true)
    (ha : ∀ l ∈ part, S.Allows l.source) :
    SimulatesPart S part (evalPart M S.rounds (part.map source)) := by
  cases part with
  | none => rfl
  | some l => exact (h l rfl).simulates S hf (ha l rfl)

theorem target {p : Var → Bool} (h : Faithful M l) (hf : l.source.targetVar.any p = true) :
    ∃ loc v, l.source.targetVar = some v ∧ p v = true ∧
      (∀ how, l.target how = pure ⟨[], .local loc v⟩) ∧
      ∀ rounds, evalPlace M rounds l.source = pure (.local v.id) := by
  cases hv : l.source.targetVar with
  | none => exact nomatch (hv ▸ hf)
  | some v =>
    rw [hv] at hf
    obtain ⟨loc, hbare⟩ := targetVar_eq_some hv
    exact ⟨loc, v, rfl, hf, h.place loc v hbare, fun _ => evalPlace_of_bare _ hbare⟩

theorem field (h : ∀ r ∈ receiver, Faithful M r) : Faithful M (.field loc type ref receiver) where
  place := nofun
  simulates S hf ha := by
    change fit S.scope (.field loc type ref (receiver.map source)) = true at hf
    simp only [fit, and_eq_true, not_eq_true', or_eq_true, decide_eq_true_eq,
      isNone_map, isNone_iff_eq_none] at hf
    refine .field hf.1.1 (fun hc => hf.1.2.resolve_left fun hne => hne hc) fun r hr => ?_
    refine (h r hr).operand (fitOperand_map hf.2 r hr) (ha.child ?_)
    exact mem_toList.2 (mem_map_of_mem _ hr)

theorem index {base position : Lowering} (hb : Faithful M base) (hp : Faithful M position) :
    Faithful M (.index loc type base position) where
  place := nofun
  simulates S hf ha := by
    change fit S.scope (.index loc type base.source position.source) = true at hf
    simp only [fit, and_eq_true] at hf
    exact .index (hb.operand hf.1 (ha.child (.head _)))
      (hp.operand hf.2 (ha.child (.tail _ (.head _))))

theorem paren (h : Faithful M l) : Faithful M (.paren loc type l) where
  place := h.place
  simulates S hf ha := .paren (h.simulates S hf (ha.child (.head _)))

theorem annot {name : String} (h : Faithful M l) : Faithful M (.annot loc type name l) where
  place := h.place
  simulates S hf ha := .annot (h.simulates S hf (ha.child (.head _)))

theorem cast {checked : Option TypePath} (h : Faithful M l) :
    Faithful M (.cast loc type checked l) where
  place := nofun
  simulates S hf ha := by
    obtain ⟨hv, hf⟩ := and_eq_true_iff.1 hf
    have hl := h.simulates S hf (ha.child (.head _))
    cases checked with
    | none => exact .cast hl hv
    | some => exact .checkedCast hl hv

theorem enumParam {ctor : String} {slot : UInt32} (h : Faithful M l) :
    Faithful M (.enumParam loc type ctor slot l) where
  place := nofun
  simulates S hf ha := by
    obtain ⟨hv, hf⟩ := and_eq_true_iff.1 hf
    exact .enumParam (h.simulates S hf (ha.child (.head _))) hv

theorem enumIndex (h : Faithful M l) : Faithful M (.enumIndex loc l) where
  place := nofun
  simulates S hf ha := by
    obtain ⟨hv, hf⟩ := and_eq_true_iff.1 hf
    exact .enumIndex (h.simulates S hf (ha.child (.head _))) hv

theorem object {fields : List (FieldInit Lowering)} (h : ∀ f ∈ fields, Faithful M f.value) :
    Faithful M (.object loc type fields) where
  place := nofun
  simulates S hf ha := by
    have hfields := forall_mem_map.1 (fitFields_iff.1 hf)
    refine .object fun f hmem => (h f hmem).operand (hfields f hmem) (ha.child ?_)
    exact mem_map_of_mem (mem_map_of_mem hmem)

theorem array {elements : List Lowering} (h : ∀ e ∈ elements, Faithful M e) :
    Faithful M (.array loc type elements) where
  place := nofun
  simulates _ hf ha := .array fun e he =>
    (h e he).operand (fitOperands_map hf e he) (ha.child (mem_map_of_mem he))

theorem new {cls : TypePath} {ctorType : Ty} (h : ∀ a ∈ args, Faithful M a) :
    Faithful M (.new loc type cls ctorType args) where
  place := nofun
  simulates _ hf ha := .new fun a hmem =>
    (h a hmem).operand (fitOperands_map hf a hmem) (ha.child (mem_map_of_mem hmem))

/-- The receiver stands for the member that is called. -/
theorem callMember {memberLoc : Loc} {memberType : Ty} (hr : ∀ r ∈ receiver, Faithful M r)
    (hargs : ∀ a ∈ args, Faithful M a) :
    Faithful M (.callMember loc type memberLoc memberType ref receiver args) where
  place := nofun
  simulates S hf ha := by
    obtain ⟨hfr, hfa⟩ := and_eq_true_iff.1 hf
    have hmember := ha.child (.head _)
    refine .callMember (fun r h => (hr r h).operand (fitOperand_map hfr r h) (hmember.child ?_))
      fun a h => (hargs a h).operand (fitOperands_map hfa a h) (ha.child ?_)
    · exact mem_toList.2 (mem_map_of_mem _ h)
    · exact mem_cons_of_mem _ (mem_map_of_mem h)

theorem call {callee : Lowering} (hfield : ∀ memberLoc memberType ref receiver,
      callee.source ≠ .field memberLoc memberType ref receiver) (hc : Faithful M callee)
    (hargs : ∀ a ∈ args, Faithful M a) :
    Faithful M (.call loc type callee args) where
  place := nofun
  simulates S hf ha := by
    have hfit : fit S.scope (.call loc type callee.source (args.map source)) =
        (callee.source.valued && fit S.scope callee.source &&
          fitOperands S.scope (args.map source)) := by
      cases hs : callee.source with
      | field => exact absurd hs (hfield _ _ _ _)
      | _ => rfl
    obtain ⟨hfc, hfa⟩ := and_eq_true_iff.1 (hfit.symm.trans hf)
    refine .call hfield (hc.operand (and_eq_true_iff.1 hfc) (ha.child (.head _)))
      fun a h => (hargs a h).operand (fitOperands_map hfa a h) (ha.child ?_)
    exact mem_cons_of_mem _ (mem_map_of_mem h)

section Binary

variable {loc : Loc} {type : Ty} {op : BinaryOp} {lhs rhs : Lowering}

/-- The right side may store into the local itself. -/
theorem assign (hl : Faithful M lhs) (hr : Faithful M rhs)
    (hf : fit S.scope (.binary loc type .assign lhs.source rhs.source) = true)
    (ha : S.Allows (.binary loc type .assign lhs.source rhs.source)) :
    Simulates S (.binary loc type .assign lhs rhs)
      (eval M S.rounds (.binary loc type .assign lhs.source rhs.source)) := by
  simp only [fit, and_eq_true, or_eq_true, not_eq_true'] at hf
  obtain ⟨hfr, hvar, hyields⟩ := hf
  obtain ⟨loc', v, htarget, hv, ht, hplace⟩ := hl.target hvar
  have hw : S.written v.id = true := ha.written (by simp [writesTo, htarget, BinaryOp.isAssignment])
  have hsim := hr.simulates S hfr (ha.child (.tail _ (.head _)))
  have heval : eval M S.rounds (.binary loc type .assign lhs.source rhs.source) = (do
      let a ← eval M S.rounds rhs.source
      Exec.set v.id a
      return a) := by
    rw [eval, hplace]
    rfl
  rw [heval]
  refine .binaryOfAssignment rfl ht ?_
  cases hb : rhs.source.bare.isBlockLike with
  | false =>
    have hvalued : rhs.source.valued = true := by
      unfold valued
      split <;> simp_all [isBlockLike]
    exact takes_assign ht hw hb (hsim.value hvalued)
  | true => exact takes_assignInto ht hw hb (hyields.resolve_left (by simp [hb])) hsim

/-- The local is read before the right side. -/
theorem compound {inner : BinaryOp} (hl : Faithful M lhs) (hr : Faithful M rhs)
    (hf : fit S.scope (.binary loc type (.compound inner) lhs.source rhs.source) = true)
    (ha : S.Allows (.binary loc type (.compound inner) lhs.source rhs.source)) :
    Simulates S (.binary loc type (.compound inner) lhs rhs)
      (eval M S.rounds (.binary loc type (.compound inner) lhs.source rhs.source)) := by
  simp only [fit, and_eq_true] at hf
  obtain ⟨hfr, hvar, hvalued⟩ := hf
  obtain ⟨loc', v, htarget, hv, ht, hplace⟩ := hl.target hvar
  simp only [and_eq_true] at hv
  have hw : S.written v.id = true := ha.written (by simp [writesTo, htarget, BinaryOp.isAssignment])
  have hright := ha.child (.tail _ (.head _))
  have hsim := hr.simulates (S.sparing v.id) hfr (hright.sparing hv.2.2)
  have heval : eval M S.rounds (.binary loc type (.compound inner) lhs.source rhs.source) = (do
      let old ← Exec.get v.id
      let b ← eval M S.rounds rhs.source
      Exec.set v.id (M.binary inner old b)
      return M.binary inner old b) := by
    rw [eval, hplace]
    rfl
  rw [heval]
  exact .binaryOfAssignment rfl ht (takes_compound ht hw hv.2.1 (hsim.value hvalued))

/-- The right side may be skipped where it needs statements. -/
theorem binary (hp : Predicted rhs) (hl : Faithful M lhs) (hr : Faithful M rhs) :
    Faithful M (.binary loc type op lhs rhs) where
  place := by
    rw [IsPlace, source_binary]
    exact nofun
  simulates S hf ha := by
    rw [source_binary] at hf ha ⊢
    have hleft := ha.child (.head _)
    have hright := ha.child (.tail _ (.head _))
    have hsim (h : rhs.source.fit S.scope = true) := hr.simulates S h hright
    cases op with
    | assign => exact assign hl hr hf ha
    | compound => exact compound hl hr hf ha
    | and =>
      simp only [fit, and_eq_true] at hf
      exact .binaryOfValue rfl (takes_shortCircuit (.inl rfl) (hl.operand hf.2.1 hleft)
        (hsim hf.1) hf.2.2 hp)
    | or =>
      simp only [fit, and_eq_true] at hf
      exact .binaryOfValue rfl (takes_shortCircuit (.inr rfl) (hl.operand hf.2.1 hleft)
        (hsim hf.1) hf.2.2 hp)
    | nullCoalesce =>
      simp only [fit, and_eq_true] at hf
      exact .binaryOfValue rfl (takes_nullCoalesce (hl.operand hf.2 hleft) (hsim hf.1))
    | _ =>
      simp only [fit, and_eq_true] at hf
      exact .operationNode rfl nofun nofun (hl.operand hf.2.1 hleft)
        (hr.operand ⟨hf.2.2, hf.1⟩ hright)

end Binary

theorem unary {op : UnaryOp} {isPost : Bool} {operand : Lowering} (h : Faithful M operand) :
    Faithful M (.unary loc type op isPost operand) where
  place := nofun
  simulates S hf ha := by
    change fit S.scope (.unary loc type op isPost operand.source) = true at hf
    change S.Allows (.unary loc type op isPost operand.source) at ha
    rw [fit] at hf
    by_cases hop : op.isStep = true
    · rw [if_pos hop] at hf
      obtain ⟨loc', v, htarget, hv, ht, hplace⟩ := h.target hf
      simp only [and_eq_true] at hv
      have hw : S.written v.id = true := ha.written (by simp [writesTo, htarget, hop])
      have hstep : Simulates S (.unary loc type op isPost operand)
          (Exec.unary op isPost (eval M S.rounds operand.source) (pure (.local v.id))) :=
        .stepNode hop ht hw hv.2
      rw [← hplace S.rounds] at hstep
      exact hstep
    · rw [if_neg hop] at hf
      have hop' : op.isStep = false := eq_false_iff.2 hop
      have heval : eval M S.rounds (.unary loc type op isPost operand.source) = (do
          return M.unary op (← eval M S.rounds operand.source)) := by
        rw [eval, Exec.unary, if_neg hop]
      change Simulates S _ (eval M S.rounds (.unary loc type op isPost operand.source))
      rw [heval]
      exact .unary hop' (h.operand (and_eq_true_iff.1 hf) (ha.child (.head _)))

/-! ## Statements -/

theorem ret {value : Option Lowering} (h : ∀ v ∈ value, Faithful M v) :
    Faithful M (.ret loc value) where
  place := by
    rw [IsPlace, source_ret]
    exact nofun
  simulates S hf ha := by
    cases value with
    | none => exact .retNone
    | some v =>
      exact .ret ((h v rfl).operand (and_eq_true_iff.1 hf) (ha.child (.head _)))

theorem throw (h : Faithful M l) : Faithful M (.throw loc l) where
  place := nofun
  simulates _ hf ha :=
    .throw (h.operand (and_eq_true_iff.1 hf) (ha.child (.head _)))

theorem varDecl {init : Option Lowering} (h : ∀ i ∈ init, Faithful M i) :
    Faithful M (.varDecl loc v init) where
  place := by
    rw [IsPlace, source_varDecl]
    exact nofun
  simulates S hf ha := by
    rw [source_varDecl] at hf ha ⊢
    have hw : S.written v.id = true := ha.written (decide_eq_true rfl)
    cases init with
    | none => exact .varDeclNone hw
    | some i =>
      simp only [map_some, fit, fitPart, all_some, and_eq_true, or_eq_true, not_eq_true'] at hf
      obtain ⟨-, hfit, hinto⟩ := hf
      have hi := ha.child (.head _)
      cases hb : i.source.bare.isBlockLike with
      | false =>
        have hvalued : i.source.valued = true := by
          unfold valued
          split <;> simp_all [isBlockLike]
        exact .varDecl hw hb (((h i rfl).simulates S hfit hi).value hvalued)
      | true =>
        obtain ⟨hscope, havoids⟩ := hinto.resolve_left (by simp [hb])
        exact .varDeclInto hw hscope hb
          ((h i rfl).simulates (S.sparing v.id) hfit (hi.sparing havoids))

/-- Each statement is in the scope of those before it. -/
theorem simulatesSeq {ls : List Lowering} (h : ∀ l ∈ ls, Faithful M l)
    (hf : fitSeq S.scope (ls.map source) = true)
    (ha : ∀ l ∈ ls, S.Allows l.source) : SimulatesSeq S ls := by
  induction ls generalizing S with
  | nil => trivial
  | cons l rest ih =>
    obtain ⟨hl, hrest⟩ := forall_mem_cons.1 h
    obtain ⟨hal, harest⟩ := forall_mem_cons.1 ha
    obtain ⟨hfl, hfrest⟩ := and_eq_true_iff.1 hf
    have hlow := low_after S.scope_low l.source hfl
    have hafter : ∀ k ∈ rest, (S.within (S.scope.after l.source) hlow).Allows k.source := harest
    exact ⟨hl.simulates S hfl hal, hlow, ih hrest hfrest hafter⟩

theorem block {exprs : List Lowering} (h : ∀ e ∈ exprs, Faithful M e) :
    Faithful M (.block loc type exprs) where
  place := nofun
  simulates _ hf ha :=
    .block (simulatesSeq h hf fun _ he => ha.child (mem_map_of_mem he))

theorem forIn {iterator : Lowering} (hi : Faithful M iterator) (hb : ∀ b ∈ body, Faithful M b) :
    Faithful M (.forIn loc v iterator body) where
  place := nofun
  simulates S hf ha := by
    change fit S.scope (.forIn loc v iterator.source (body.map source)) = true at hf
    simp only [fit, and_eq_true, not_eq_true'] at hf
    obtain ⟨hv, hfi, hfb⟩ := hf
    have hlow := low_bind S.scope_low hv
    refine .forIn (ha.written (decide_eq_true rfl)) hlow (hi.operand hfi (ha.child (.head _)))
      (part (S := S.within _ hlow) hb hfb fun b h => ha.child ?_)
    exact mem_cons_of_mem _ (mem_toList.2 (mem_map_of_mem _ h))

theorem ite {onTrue onFalse : Option Lowering} (hc : Faithful M cond)
    (ht : ∀ t ∈ onTrue, Faithful M t) (hf : ∀ f ∈ onFalse, Faithful M f) :
    Faithful M (.ite loc type cond onTrue onFalse) where
  place := nofun
  simulates S hfit ha := by
    change fit S.scope (.ite loc type cond.source (onTrue.map source)
      (onFalse.map source)) = true at hfit
    simp only [fit, and_eq_true] at hfit
    refine .ite (hc.operand hfit.1 (ha.child (.head _)))
      (part ht hfit.2.1 fun t h => ha.child ?_) (part hf hfit.2.2 fun f h => ha.child ?_)
    · exact mem_cons_of_mem _ (mem_append_left _ (mem_toList.2 (mem_map_of_mem _ h)))
    · exact mem_cons_of_mem _ (mem_append_right _ (mem_toList.2 (mem_map_of_mem _ h)))

/-- The statements of the condition go into the body. -/
theorem loop {test : LoopTest} (hp : Predicted cond) (hc : Faithful M cond)
    (hb : ∀ b ∈ body, Faithful M b) :
    Faithful M (.loop loc test cond body) where
  place := nofun
  simulates S hf ha := by
    obtain ⟨hfc, hfb⟩ := and_eq_true_iff.1 hf
    have hbody : SimulatesPart S body _ := part hb hfb fun b h => ha.child
      (.tail _ (mem_toList.2 (mem_map_of_mem _ h)))
    have hloop : Simulates S (.loop loc test cond body) _ := .loop hp
      (hc.operand (and_eq_true_iff.1 hfc) (ha.child (.head _))) hbody
    have heval : eval M S.rounds (.loop loc test cond.source (body.map source)) =
        looping test (eval M S.rounds cond.source)
          (evalPart M S.rounds (body.map source)) S.rounds := by
      cases test <;> rfl
    rw [← heval] at hloop
    exact hloop

/-- The values of the cases need no statements. -/
theorem simulatesCases (hp : ∀ c ∈ cases, ∀ v ∈ c.values, Predicted v)
    (h : ∀ c ∈ cases, (∀ v ∈ c.values, Faithful M v) ∧ ∀ b ∈ c.body, Faithful M b)
    (hf : fitCases S.scope (caseSources cases) = true)
    (ha : ∀ c ∈ cases, (∀ v ∈ c.values, S.Allows v.source) ∧ ∀ b ∈ c.body, S.Allows b.source) :
    SimulatesCases S cases := by
  have hcases := forall_mem_map.1 (fitCases_iff.1 hf)
  intro c hc
  obtain ⟨hfv, hfb⟩ := hcases c hc
  refine ⟨fun v hv => ⟨?_, hp c hc v hv⟩, part (h c hc).2 hfb (ha c hc).2⟩
  exact ((h c hc).1 v hv).operand (fitOperands_map hfv v hv) ((ha c hc).1 v hv)

theorem switch {subject : Lowering} {default : Option Lowering} (hs : Faithful M subject)
    (hp : ∀ c ∈ cases, ∀ v ∈ c.values, Predicted v)
    (hc : ∀ c ∈ cases, (∀ v ∈ c.values, Faithful M v) ∧ ∀ b ∈ c.body, Faithful M b)
    (hd : ∀ d ∈ default, Faithful M d) : Faithful M (.switch loc type subject cases default) where
  place := nofun
  simulates S hf ha := by
    change fit S.scope (.switch loc type subject.source (caseSources cases)
      (default.map source)) = true at hf
    simp only [fit, and_eq_true] at hf
    obtain ⟨hfs, hfc, hfd⟩ := hf
    have hcases : ∀ c ∈ cases,
        (∀ v ∈ c.values, S.Allows v.source) ∧ ∀ b ∈ c.body, S.Allows b.source := by
      intro c hmem
      have hparts (e : Expr) (he : e ∈ c.values.map source ++
          (c.body.map source).toList) : S.Allows e :=
        ha.child (.tail _ (mem_append_left _ (mem_flatMap.2 ⟨_, mem_map_of_mem hmem, he⟩)))
      exact ⟨fun v hv => hparts _ (mem_append_left _ (mem_map_of_mem hv)),
        fun b hb => hparts _ (mem_append_right _ (mem_toList.2 (mem_map_of_mem _ hb)))⟩
    have hdefault : ∀ d ∈ default, S.Allows d.source := fun d h => ha.child
      (.tail _ (mem_append_right _ (mem_toList.2 (mem_map_of_mem _ h))))
    have hsubject := hs.operand hfs (ha.child (.head _))
    exact .switch hsubject (simulatesCases hp hc hfc hcases) (part hd hfd hdefault)
      (fun t a h => simulatesCases (S := S.holding t a h) hp hc hfc hcases)
      fun t a h => part (S := S.holding t a h) hd hfd hdefault

/-- Each handler has the thrown value in scope. -/
theorem tryCatch {handlers : List (Handler Lowering)} (hb : ∀ b ∈ body, Faithful M b)
    (hh : ∀ h ∈ handlers, ∀ b ∈ h.body, Faithful M b) :
    Faithful M (.tryCatch loc type body handlers) where
  place := nofun
  simulates S hf ha := by
    obtain ⟨hfb, hfh⟩ := and_eq_true_iff.1 hf
    have hhandlers := forall_mem_map.1 (fitHandlers_iff.1 hfh)
    refine .tryCatch (part hb hfb fun b h => ha.child ?_) fun k hk => ?_
    · exact mem_append_left _ (mem_toList.2 (mem_map_of_mem _ h))
    · obtain ⟨hv, hfk⟩ := hhandlers k hk
      have hlow := low_bind S.scope_low hv
      refine ⟨ha.written ?_, hlow, part (S := S.within _ hlow) (hh k hk) hfk fun b h => ha.child ?_⟩
      · exact any_eq_true.2 ⟨_, mem_map_of_mem hk, decide_eq_true rfl⟩
      · exact mem_append_right _ (mem_filterMap.2 ⟨_, mem_map_of_mem hk, mem_map_of_mem _ h⟩)

theorem leaf (hp : IsPlace (.leaf e))
    (h : ∀ S : Setting M, e.fit S.scope = true → Simulates S (.leaf e) (eval M S.rounds e)) :
    Faithful M (.leaf e) := ⟨hp, fun S hf _ => h S hf⟩

/-- Every way of making a lowering is faithful. -/
theorem compositional : Compositional Predicted (Faithful M) where
  known := predicted_lower
  omitted := leaf nofun fun _ _ => .const rfl rfl
  const _ _ _ := leaf nofun fun _ _ => .const rfl rfl
  localVar _ _ := leaf (fun _ _ h _ => by cases h; rfl) fun _ hf => .localVar hf
  typeRef _ _ _ := leaf nofun fun _ _ => .const rfl rfl
  ident _ _ _ := leaf nofun fun _ _ => .ident
  brk _ := ⟨nofun, fun _ _ _ => .jump rfl rfl⟩
  cont _ := ⟨nofun, fun _ _ _ => .jump rfl rfl⟩
  field _ _ _ _ := field
  index _ _ _ _ := index
  paren _ _ _ := paren
  annot _ _ _ _ := annot
  object _ _ _ := object
  array _ _ _ := array
  callMember _ _ _ _ _ _ _ := callMember
  call _ _ _ _ := call
  new _ _ _ _ _ := new
  binary _ _ _ _ _ := binary
  unary _ _ _ _ _ := unary
  function _ _ _ _ _ _ := ⟨nofun, fun _ hf _ => nomatch hf⟩
  varDecl _ _ _ := varDecl
  block _ _ _ := block
  forIn _ _ _ _ := forIn
  ite _ _ _ _ _ := ite
  loop _ _ _ _ := loop
  switch _ _ _ _ _ := switch
  ret _ _ := ret
  throw _ _ := throw
  cast _ _ _ _ := cast
  tryCatch _ _ _ _ := tryCatch
  enumParam _ _ _ _ _ := enumParam
  enumIndex _ _ := enumIndex

end Faithful

/-! ## What normalization makes of a tree -/

def AlikeIn (Γ : Scope) (σ τ : State M) : Prop := Match Γ (fun _ => True) σ τ

/-- From every state, what normalization makes of the tree ends like the
tree, with the same jump if any, or does not end either. -/
structure Preserves (M : Machine) (rounds : Nat) (Γ : Scope) (e : Expr) (s : TempSupply) : Prop where
  /-- As statements whose value nobody wants. -/
  stmts : Gives (normalize e none) s fun t _ => ∀ σ : State M,
    Agree (eval M rounds e σ) (eval M rounds t) σ (fun _ _ => AlikeIn (Γ.after e)) (AlikeIn Γ)
  /-- As statements that store the value in a local. -/
  stored : e.yields = true → ∀ loc (v : Var), v.id.toNat < s.next →
    Gives (normalize e (some (.local loc v))) s fun t _ => ∀ σ : State M,
      Agree (eval M rounds e σ) (eval M rounds t) σ
        (fun a _ σ' τ' => τ'.locals v.id = a ∧ AlikeIn ((Γ.after e).without v.id) σ' τ') (AlikeIn Γ)
  /-- As a value, with statements before it. -/
  value : e.valued = true → Gives (normalizeValue e) s fun h _ => ∀ σ : State M,
    Agree (eval M rounds e σ) (do run M rounds h.stmts; eval M rounds h.value) σ
      (fun a b σ' τ' => a = b ∧ AlikeIn Γ σ' τ') (AlikeIn Γ)

/-- The setting of a whole tree, which may write any local of the program. -/
def Setting.whole (M : Machine) (rounds : Nat) (Γ : Scope) (hΓ : Γ.Low) (s : TempSupply)
    (hs : Reserved s) : Setting M where
  rounds := rounds
  scope := Γ
  written y := y.toNat < tempBase.toNat
  scope_low := hΓ
  written_low _ hy := of_decide_eq_true hy
  first := s.next
  first_le := hs
  given _ := True
  given_rests _ _ _ _ := trivial

theorem rests_true {C : UInt32 → Prop} : Rests (fun _ : UInt32 → M.Value => True) C :=
  fun _ _ _ _ => trivial

theorem gives_normalize {assignee : Option Expr} {s : TempSupply} {Q : Expr → TempSupply → Prop}
    (h : Gives ((lower e).body assignee) s fun stmts s' => Q (.statements e.loc stmts) s') :
    Gives (normalize e assignee) s Q := h.bind fun _ _ hq => gives_pure hq

/-- **Normalization keeps the meaning of trees.** The tree names no
temporaries, and it fits where the locals in `Γ` are in scope. -/
theorem normalization_preserves_meaning (M : Machine) (rounds : Nat) (Γ : Scope) (e : Expr)
    (s : TempSupply) (hs : Reserved s) (hΓ : Γ.Low) (hfree : e.TempFree)
    (hfit : e.fit Γ = true) : Preserves M rounds Γ e s := by
  let S := Setting.whole M rounds Γ hΓ s hs
  have hallows : S.Allows e := by
    intro y hy
    refine decide_eq_true (Nat.lt_of_not_le fun hle => ?_)
    exact nomatch hy.symm.trans (avoids_of_tempFree hle e hfree)
  have hsim : Simulates S (lower e) (eval M rounds e) := by
    have hfaithful := (Faithful.compositional (M := M)).lower e
    have hsource := hfaithful.simulates S
    rw [source_lower] at hsource
    exact hsource hfit hallows
  have hadmits : S.Admits fun _ => True := fun _ _ => trivial
  have hstart (σ : State M) : Match S.scope (fun _ => True) σ σ :=
    ⟨rfl, rfl, fun _ _ => rfl, trivial⟩
  refine ⟨gives_normalize ?_, fun hyields loc v hv => gives_normalize ?_, fun hvalued => ?_⟩
  · have hbody := hsim.body {} none s .refl nofun
    rw [source_lower] at hbody
    refine hbody.mono fun stmts s' ⟨_, hp⟩ σ => ?_
    have hrun := hp _ _ (carries_none hadmits rests_true) σ σ (hstart σ)
    refine steps_statements (Q := fun τ' => ∃ a σ', eval M rounds e σ = some (.ok a, σ') ∧
      AlikeIn (Γ.after e) σ' τ') (Steps.mono hrun ?_)
    rintro _ τ' ⟨a, σ', hσ, -, hm⟩
    exact ⟨a, σ', hσ, hm⟩
  · have hbody := hsim.body loc (some v) s .refl (forall_mem_some.2 hv)
    rw [source_lower] at hbody
    refine hbody.mono fun stmts s' ⟨_, hp⟩ σ => ?_
    have hcarries : Carries S e.yields (some v) (Range s.next s'.next) (fun _ => True)
        (fun _ => True) := ⟨hadmits, rests_true, rests_true, fun _ => id, fun _ _ _ _ => .inl hyields⟩
    refine steps_statements (Q := fun τ' => ∃ a σ', eval M rounds e σ = some (.ok a, σ') ∧
      τ'.locals v.id = a ∧ AlikeIn ((Γ.after e).without v.id) σ' τ')
      (Steps.mono (hp _ _ hcarries σ σ (hstart σ)) ?_)
    rintro _ τ' ⟨a, σ', hσ, hv', hm⟩
    exact ⟨a, σ', hσ, hv' v rfl, hm⟩
  · rw [← source_lower e] at hvalued
    refine (hsim.value hvalued s .refl).mono fun h s' ⟨_, hreal, _, _⟩ σ => ?_
    refine (hreal _ hadmits rests_true σ σ (hstart σ)).bind fun _ τ' ⟨_, hreads⟩ => ?_
    exact hreads.agree trivial

/-- Values are constants, everything that happens yields null, and only
equality and negation compute. -/
def constants : Machine where
  Value := Const
  World := Unit
  const := id
  typeValue _ := .null
  closure _ := .null
  ctor _ := .null
  ident _ _ := .null
  member _ _ _ := .null
  element _ _ _ := .null
  enumParam _ _ _ _ := .null
  enumIndex _ _ := .null
  unary op v := if op = .not then .bool (v ≠ .bool true) else .null
  binary op a b := if op = .eq then .bool (a = b) else .null
  truth v := v = .bool true
  isNull v := v = .null
  catches _ _ := true
  perform _ w := (.ok .null, w)
  setMember _ _ _ w := w
  setElement _ _ _ w := w
  truth_bool b := by simp
  truth_not v := by simp
  isNull_iff v := decide_eq_true_iff
  truth_eq_null v := by simp

/-- `while ((line = read()) != null) write(line)`: the condition needs
statements each time. -/
def readLoop : Expr :=
  let line : Var := ⟨1, "line", .string⟩
  let call (name : String) (args : List Expr) : Expr := .call {} .string (.ident {} .dynamic name) args
  .loop {} .before (.mkBinary {} .ne (.mkAssign {} (.local {} line) (call "read" [])) (.nullLit {}))
    (some (call "write" [.local {} line]))

theorem normalization_preserves_meaning_readLoop :
    Reserved .all ∧ Scope.Low (· = 1) ∧ readLoop.TempFree ∧ readLoop.fit (· = 1) = true ∧
      Preserves constants 8 (· = 1) readLoop .all := by
  have hlow : Scope.Low (· = 1) := by
    intro y hy
    rw [of_decide_eq_true hy]
    decide
  have hfree : readLoop.TempFree := by decide
  exact ⟨reserved_all, hlow, hfree, rfl,
    normalization_preserves_meaning constants 8 _ readLoop .all reserved_all hlow hfree rfl⟩

end LuaBackend.Normalize.Meaning
