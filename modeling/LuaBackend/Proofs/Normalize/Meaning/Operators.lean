import LuaBackend.Proofs.Normalize.Meaning.Values

/-!
# Operators that keep their meaning

An operator whose right side may be left out keeps the value of its left
side in a temporary, and the right side stores into it if needed. An
assignment leaves its value in the local that is assigned. For a compound
assignment the local must not be written in between, since the target
reads it after the statements of the right side and the source before
them.
-/

namespace LuaBackend.Normalize.Meaning

open Simulation Lowering List

variable {M : Machine} {S : Setting M} {m m' : Exec M M.Value} {lhs rhs : Lowering}
variable {loc loc' : Loc} {type : Ty} {v : Var}
variable {Γ : Scope} {y : UInt32}
variable {τ σ : State M} {I : Known M} {R : UInt32 → Prop} {a : M.Value} {op : BinaryOp}

/-! ## Right sides that may be left out -/

theorem gives_scope {l : Lowering} {assignee : Option Expr} {s : TempSupply}
    {Q : List Expr → TempSupply → Prop} (h : Gives (l.body assignee) s Q) :
    Gives (scope (some l) assignee) s fun b s' =>
      ∃ stmts, b = .statements l.source.loc stmts ∧ Q stmts s' :=
  h.bind fun stmts _ hq => gives_pure ⟨stmts, rfl, hq⟩

/-- A temporary that holds what the source ended with. -/
theorem Reached.match_temp {t : Var} (h : Reached Γ I (some t) a () σ τ)
    (ht : tempBase.toNat ≤ t.id.toNat) (hΓ : ∀ y, S.scope y = true → Γ y = true) :
    Match S.scope I σ τ := by
  refine h.2.scope_mono fun y hy => ?_
  have hne : y ≠ t.id := by
    rintro rfl
    exact nomatch (Setting.not_scope ht).symm.trans hy
  simp [apart, Scope.without, hne, hΓ y hy]

/-- The right side stores into the temporary of the left one if that passes
a test. -/
theorem takes_guarded {yields : Bool} {cond : Var → Expr} {test : M.Value → Bool}
    {ty : Hoisted → Ty} (hl : Takes S lhs.source.designates lhs.value m)
    (hr : ∀ t, Runs S Γ yields (some t) (rhs.body (some (.local loc t))) m')
    (hΓ : ∀ y, S.scope y = true → Γ y = true)
    (hcond : ∀ (t : Var) (τ : State M), ∃ c, eval M S.rounds (cond t) τ = some (.ok c, τ) ∧
      M.truth c = test (τ.locals t.id)) (hnull : yields = true ∨ ∀ a, test a = true → a = M.null) :
    Takes S false (do
      let h ← lhs.value
      let t ← freshTemp (ty h)
      let stmts ← scope (some rhs) (some (.local loc t))
      return ⟨h.stmts ++ [.varDecl loc t (some h.value), .ite loc .void (cond t) (some stmts) none],
        .local loc t⟩)
      (do
        let a ← m
        if test a then m' else return a) := by
  intro s hs
  refine (hl s hs).bind fun h s₁ ⟨hle₁, hreal, _, _⟩ => ?_
  refine gives_freshTemp_next.bind fun t s₂ ⟨hid, hs₂⟩ => ?_
  have hfirst : S.first ≤ s₁.next := Nat.le_trans hs hle₁
  have htemp : tempBase.toNat ≤ t.id.toNat := hid ▸ Nat.le_trans S.first_le hfirst
  have hbelow : ∀ v ∈ some t, v.id.toNat < s₂.next := forall_mem_some.2 (by omega)
  refine (gives_scope (hr t s₂ (by omega) hbelow)).bind fun _ s₃ h₃ => ?_
  obtain ⟨stmts, rfl, hle₃, hstores⟩ := h₃
  have ht : Range s.next s₃.next t.id := ⟨by omega, by omega⟩
  refine gives_pure ⟨by omega, fun I hg hI σ τ hm => ?_,
    fun _ => fixed_temp ⟨htemp, by omega⟩, nofun⟩
  have hI₁ : Rests I (S.Keeps fun y => Range s.next s₁.next y ∨ y = t.id) :=
    hI.mono fun _ hy => hy.mono fun _ hr => .of_or_next hr hid hle₁ (by omega)
  have hI₃ : Rests I (S.Spares (Range s₂.next s₃.next) (some t)) :=
    rests_spares hI (fun _ hy => hy.mono fun _ hr => hr.mono (by omega) .refl) fun hk => hk.1 ht
  have hkept : S.Keeps (Range s₂.next s₃.next) t.id :=
    Setting.keeps_temp htemp fun hr => by have := hr.1; omega
  dsimp only
  rw [append_cons, run_append]
  refine (hreal.declares htemp hg hI₁ hm).bind
    (Q := fun r _ τ' => I τ'.locals ∧ Reads S r (eval M S.rounds (.local loc t)) τ') ?_
  rintro a _ σ₁ τ₂ ⟨hta, hm₂⟩
  obtain ⟨c, hc, htruth⟩ := hcond t τ₂
  rw [hta] at htruth
  refine steps_ite (steps_of_ok hc ?_)
  rw [htruth]
  by_cases htest : test a = true
  · rw [if_pos htest, if_pos htest]
    -- until the right side stores something, the temporary holds the left one
    have hcarries := carries_holding hg hI₃ hkept (hnull.imp_right fun hnull => hnull a htest)
    have hrun := (hstores I _ hcarries σ₁ τ₂ (hm₂.known_mono ⟨hm₂.known, hta⟩)).exit_mono
      fun _ _ hj => hj.known_mono hj.known.1
    refine steps_scope (Steps.mono hrun ?_)
    rintro _ τ' ⟨b, σ', hσ', hreached⟩
    have hm' := hreached.match_temp htemp hΓ
    exact ⟨hm'.known, reads_of_ok hσ' (eval_local (hreached.1 t rfl)) hm'⟩
  · rw [if_neg htest, if_neg htest]
    exact steps_of_ok rfl ⟨hm₂.known, reads_of_ok rfl (eval_local hta) hm₂⟩

/-- What `&&` or `||` asks of its left side to go on. -/
def goesOn (M : Machine) (op : BinaryOp) (a : M.Value) : Bool :=
  if op = .or then !M.truth a else M.truth a

theorem binary_lazy (hop : op = .and ∨ op = .or) (x y : Exec M M.Value)
    (place : Exec M (Place M.Value)) :
    Exec.binary op x place y = (do let a ← x; if goesOn M op a then y else return a) := by
  rcases hop with rfl | rfl
  · rfl
  · refine congrArg (x >>= ·) (funext fun a => ?_)
    cases ha : M.truth a with
    | true => simp [goesOn, ha]
    | false => simp [goesOn, ha]

/-- `&&` and `||`: statements of the right side are guarded. -/
theorem takes_shortCircuit {place : Exec M (Place M.Value)} (hop : op = .and ∨ op = .or)
    (hl : Takes S lhs.source.designates lhs.value m) (hr : Simulates S rhs m')
    (hyields : rhs.source.yields = true) (hp : Predicted rhs) :
    Takes S false (shortCircuit loc type op lhs rhs) (Exec.binary op m place m') := by
  unfold shortCircuit
  rw [binary_lazy hop]
  by_cases hh : rhs.source.hoists = true
  · simp only [if_pos hh]
    refine takes_guarded hl (fun t => hr.body loc (some t)) (fun _ => Scope.le_after) (fun t τ => ?_)
      (.inl hyields)
    by_cases hor : op = .or
    · rw [if_pos hor]
      refine ⟨M.unary .not (τ.locals t.id), rfl, ?_⟩
      rw [M.truth_not, goesOn, if_pos hor]
    · rw [if_neg hor]
      refine ⟨τ.locals t.id, rfl, ?_⟩
      rw [goesOn, if_neg hor]
  · simp only [if_neg hh]
    have hvalued := Expr.valued_of_hoists_eq_false rhs.source (Bool.eq_false_iff.2 hh)
    intro s hs
    refine (hl s hs).bind fun h s₁ ⟨hle₁, hreal, _, _⟩ => ?_
    refine ((hr.value hvalued s₁ (by omega)).and (hp.value s₁)).bind fun r s₂ h₂ => ?_
    obtain ⟨⟨hle₂, hright, _, _⟩, hquiet⟩ := h₂
    have hstmts : r.stmts = [] := (hquiet (Bool.eq_false_iff.2 hh)).stmts
    have hread := hright.quiet (fun y hy => by have := hy.1; omega) hstmts
    refine gives_pure ⟨by omega, ?_, nofun, nofun⟩
    rw [hstmts, append_nil]
    refine Realizes.around (hreal.mono fun _ hy => hy.mono .refl hle₂)
      (by rw [eval, binary_lazy hop]) fun I a σ τ hg hm => ?_
    by_cases ha : goesOn M op a = true
    · rw [if_pos ha, if_pos ha]
      exact hread I hg σ τ hm
    · rw [if_neg ha, if_neg ha]
      exact reads_pure hm

/-- `??`: the right side is needed only if the left one is null. -/
theorem takes_nullCoalesce (hl : Takes S lhs.source.designates lhs.value m)
    (hr : Simulates S rhs m') :
    Takes S false (nullCoalesce loc type lhs rhs) (do
        let a ← m
        if M.isNull a then m' else return a) := by
  refine takes_guarded hl (fun t => hr.body loc (some t)) (fun _ => Scope.le_after) (fun t τ => ?_)
    (.inr fun a ha => (M.isNull_iff a).1 ha)
  exact ⟨M.binary .eq (τ.locals t.id) M.null, rfl, M.truth_eq_null _⟩

/-! ## Assignments -/

def IsPlace (l : Lowering) : Prop :=
  ∀ loc v, l.source.bare = .local loc v → ∀ how, l.target how = pure ⟨[], .local loc v⟩

section Assignments

variable {op : BinaryOp} {d : Bool}

/-- As a statement, an assignment to a local drops the local. -/
theorem assignStmt_eq (ht : ∀ how, lhs.target how = pure ⟨[], .local loc' v⟩) :
    assignStmt loc type op lhs rhs = storeOrDrop loc (assignment loc type op lhs rhs) := by
  funext assignee
  unfold assignStmt storeOrDrop assignment
  simp only [ht, pure_bind]
  split
  · simp [Expr.isPure]
  · simp [Expr.isPure]

/-- The source catches up with a target that stored into a local. -/
theorem Reached.set_source (h : Reached Γ I (some v) a () σ τ) :
    Match (Γ.bind v.id) I (σ.set v.id a) τ := by
  obtain ⟨hv, hm⟩ := h
  refine ⟨hm.world, hm.trace, fun z hz => ?_, hm.known⟩
  by_cases hzv : z = v.id
  · rw [hzv, State.locals_set_self, hv v rfl]
  · rw [State.locals_set_ne _ _ hzv]
    refine hm.locals z ?_
    simpa [apart, Scope.without, Scope.bind, hzv] using hz

/-- A local that may be written is not kept. -/
theorem Setting.not_keeps (hy : S.written y = true) :
    ¬ S.Keeps R y := fun hk => nomatch hk.2.symm.trans hy

theorem isStable_written {P : Prop} (hv : S.written v.id = true)
    (h : (Expr.local loc v).isStable = true) : P := by
  have hlow : v.isTemp = false := not_isTemp_of_lt (S.written_low _ hv)
  exact nomatch hlow.symm.trans h

section

variable (ht : ∀ how, lhs.target how = pure ⟨[], .local loc' v⟩) (hv : S.written v.id = true)
include ht hv

/-- The right side is taken, then stored. -/
theorem takes_assign (hb : rhs.source.bare.isBlockLike = false) (hr : Takes S d rhs.value m') :
    Takes S false (assignment loc type .assign lhs rhs) (do
        let a ← m'
        Exec.set v.id a
        return a) := by
  intro s hs
  simp only [assignment, hb, ht, pure_bind, nil_append]
  refine (hr s hs).bind fun h s' ⟨hle, hreal, _, _⟩ =>
    gives_pure ⟨hle, fun I hg hI σ τ hm => ?_, isStable_written hv, nofun⟩
  dsimp only
  rw [run_append]
  refine (hreal I hg hI σ τ hm).source_bind.bind fun _ τ₁ ⟨hI₁, hreads⟩ => ?_
  refine steps_assign (Steps.mono (Steps.source_bind (hreads.agree hI₁)) ?_)
  rintro _ τ₂ ⟨a, σ₂, hσ, rfl, hm₂⟩
  have hset := hm₂.set (v := a) hI (Setting.not_keeps hv)
  exact ⟨hset.known, reads_of_ok (Exec.bind_of_ok hσ) (eval_local (State.locals_set_self _ _ _))
    (hset.scope_mono fun _ => Scope.le_bind)⟩

/-- A block stores into the local itself. -/
theorem takes_assignInto (hb : rhs.source.bare.isBlockLike = true)
    (hyields : rhs.source.yields = true) (hr : Simulates S rhs m') :
    Takes S false (assignment loc type .assign lhs rhs) (do
        let a ← m'
        Exec.set v.id a
        return a) := by
  intro s hs
  have hlow := S.written_low _ hv
  have hfirst := S.first_le
  simp only [assignment, hb, ht, pure_bind, nil_append]
  have hbelow : ∀ w ∈ some v, w.id.toNat < s.next := forall_mem_some.2 (by omega)
  refine (hr.stmt loc' (some v) s hs hbelow).bind fun stmts s' ⟨hle, hstores⟩ =>
    gives_pure ⟨hle, fun I hg hI σ τ hm => ?_, isStable_written hv, nofun⟩
  have hI' : Rests I (S.Spares (Range s.next s'.next) (some v)) :=
    rests_spares hI (fun _ => id) (Setting.not_keeps hv)
  have hcarries : Carries S rhs.source.yields (some v) (Range s.next s'.next) I I :=
    ⟨hg, hI', hI, fun _ => id, fun _ _ _ _ => .inl hyields⟩
  refine Steps.mono (Steps.source_bind (hstores I I hcarries σ τ hm)) ?_
  rintro _ τ' ⟨a, σ', hσ, hreached⟩
  have hset := hreached.set_source
  exact ⟨hset.known, reads_of_ok (Exec.bind_of_ok hσ) (eval_local (hreached.1 v rfl))
    (hset.scope_mono fun _ hy => Scope.le_bind (Scope.le_after hy))⟩

end

def Setting.sparing (S : Setting M) (y : UInt32) : Setting M :=
  { S with
    written := S.written.without y
    written_low := fun z hz => S.written_low z (by simp_all [Scope.without]) }

theorem Setting.Keeps.sparing {z : UInt32} (h : S.Keeps R z) :
    (S.sparing y).Keeps R z := ⟨h.1, by simp [Setting.sparing, Scope.without, h.2]⟩

/-- The right side does not write the local, so both sides read the same. -/
theorem takes_compound (ht : ∀ how, lhs.target how = pure ⟨[], .local loc' v⟩)
    (hv : S.written v.id = true) (hscope : S.scope v.id = true)
    (hr : Takes (S.sparing v.id) d rhs.value m') :
    Takes S false (assignment loc type (.compound op) lhs rhs) (do
        let old ← Exec.get v.id
        let b ← m'
        Exec.set v.id (M.binary op old b)
        return M.binary op old b) := by
  intro s hs
  have hlow := S.written_low _ hv
  have hfirst := S.first_le
  simp only [assignment, ht, pure_bind, nil_append]
  refine (hr s hs).bind fun h s' ⟨hle, hreal, _, _⟩ =>
    gives_pure ⟨hle, fun I hg hI σ τ hm => ?_, isStable_written hv, nofun⟩
  -- The local holds the old value up to the store, since the right side spares it.
  have hkept : (S.sparing v.id).Keeps (Range s.next s'.next) v.id :=
    ⟨fun hr => by have := hr.1; omega, by simp [Setting.sparing, Scope.without]⟩
  have hI' : Rests (fun l => I l ∧ l v.id = σ.locals v.id)
      ((S.sparing v.id).Keeps (Range s.next s'.next)) :=
    (hI.mono fun _ hy => hy.sparing).and (rests_local hkept)
  have hm' : Match S.scope (fun l => I l ∧ l v.id = σ.locals v.id) σ τ :=
    hm.known_mono ⟨hm.known, (hm.locals _ hscope).symm⟩
  have hrun := (hreal _ (Setting.Admits.and hg _) hI' σ τ hm').exit_mono
    fun _ _ hj => hj.known_mono hj.known.1
  dsimp only
  rw [run_append]
  change Steps ((m' >>= fun b => _) σ) _ _ (fun _ τ' => I τ'.locals ∧ Reads S ((m' >>= _) σ) _ τ') _
  refine hrun.source_bind.bind fun _ τ₁ ⟨⟨hI₁, hold⟩, hreads⟩ => ?_
  refine steps_compound hold (Steps.mono (Steps.source_bind (hreads.agree hI₁)) ?_)
  rintro _ τ₂ ⟨b, σ₂, hσ, rfl, hm₂⟩
  have hset := hm₂.set (v := M.binary op (σ.locals v.id) b) hI (Setting.not_keeps hv)
  exact ⟨hset.known, reads_of_ok (Exec.bind_of_ok hσ) (eval_local (State.locals_set_self _ _ _))
    (hset.scope_mono fun _ => Scope.le_bind)⟩

end Assignments

section Steps

variable {op : UnaryOp} {isPost : Bool} {operand : Lowering}

def stepped (M : Machine) (op : UnaryOp) (old : M.Value) : M.Value :=
  M.binary op.stepOp old (M.const (.int 1))

/-- A step of a local, on the source side. -/
theorem unary_step (hop : op.isStep = true) (σ : State M) :
    Exec.unary op isPost m (pure (.local y)) σ =
      some (.ok (if isPost then σ.locals y else stepped M op (σ.locals y)),
        σ.set y (stepped M op (σ.locals y))) := by
  unfold Exec.unary
  rw [if_pos hop]
  rfl

/-- The change that a step makes on both sides. -/
theorem steps_change {α : Type} {r : Result M α} {Q : Unit → State M → Prop}
    {J : State M → State M → Prop} {ty : Ty} (hq : Q () (τ.set v.id (stepped M op (τ.locals v.id))))
    :
    Steps r (run M S.rounds
      [.binary loc ty (.compound op.stepOp) (.local loc' v) (.intLit loc 1)]) τ Q J :=
  steps_compound rfl (steps_of_ok rfl hq)

theorem match_step (op : UnaryOp) (hm : Match S.scope I σ τ) (hI : Rests I (S.Keeps R))
    (hv : S.written v.id = true) (hscope : S.scope v.id = true) :
    Match S.scope I (σ.set v.id (stepped M op (σ.locals v.id)))
      (τ.set v.id (stepped M op (τ.locals v.id))) := by
  rw [hm.locals _ hscope]
  exact (hm.set hI (Setting.not_keeps hv)).scope_mono fun _ => Scope.le_bind

section

variable (hop : op.isStep = true) (ht : ∀ how, operand.target how = pure ⟨[], .local loc' v⟩)
  (hv : S.written v.id = true) (hscope : S.scope v.id = true)
include hop ht hv hscope

/-- A step that yields the new value. -/
theorem takes_step :
    Takes S false (step loc op operand) (Exec.unary op false m (pure (.local v.id))) := by
  intro s hs
  simp only [step, ht, pure_bind, nil_append]
  refine gives_pure ⟨.refl, fun I hg hI σ τ hm => steps_change ?_, isStable_written hv, nofun⟩
  have hstep := match_step op hm hI hv hscope
  refine ⟨hstep.known, reads_of_ok (unary_step hop σ) (eval_local ?_) hstep⟩
  rw [State.locals_set_self, hm.locals _ hscope]
  rfl

/-- The old value is kept in a temporary. -/
theorem takes_stepAfter :
    Takes S false (stepAfter loc type op operand) (Exec.unary op true m (pure (.local v.id))) := by
  intro s hs
  have hlow := S.written_low _ hv
  have hfirst := S.first_le
  simp only [stepAfter, ht, pure_bind, nil_append]
  refine gives_freshTemp_next.bind fun t s' ⟨hid, hs'⟩ => ?_
  have htemp : tempBase.toNat ≤ t.id.toNat := by omega
  have hrange : Range s.next s'.next t.id := ⟨by omega, by omega⟩
  refine gives_pure ⟨by omega, fun I hg hI σ τ hm => ?_,
    fun _ => fixed_temp ⟨htemp, hrange.2⟩, nofun⟩
  have hne : t.id ≠ v.id := by
    intro h
    rw [h] at htemp
    omega
  have hkept := hm.set_target (v := τ.locals v.id) hI (Setting.not_scope htemp)
    fun hk => hk.1 hrange
  have hstep := match_step op hkept hI hv hscope
  refine steps_declared rfl (steps_change ⟨hstep.known,
    reads_of_ok (unary_step hop σ) (eval_local ?_) hstep⟩)
  rw [State.locals_set_ne _ _ hne, State.locals_set_self, ← hm.locals _ hscope]
  rfl

end

end Steps

namespace Simulates

/-- An operator that assigns nothing. -/
theorem binaryOfValue {op : BinaryOp} (hop : op.isAssignment = false)
    (h : Takes S false (binaryValue loc type op lhs rhs) m) :
    Simulates S (.binary loc type op lhs rhs) m := by
  unfold binary
  rw [if_neg (by simp [hop])]
  exact .ofValue h rfl

/-- An assignment, as a value and as a statement. -/
theorem binaryOfAssignment {op : BinaryOp} (hop : op.isAssignment = true)
    (ht : ∀ how, lhs.target how = pure ⟨[], .local loc' v⟩)
    (h : Takes S false (assignment loc type op lhs rhs) m) :
    Simulates S (.binary loc type op lhs rhs) m := by
  have hvalue : binaryValue loc type op lhs rhs = assignment loc type op lhs rhs := by
    cases op with
    | assign | compound => rfl
    | _ => cases hop
  unfold binary
  rw [if_pos hop, hvalue]
  exact .of_takes h (assignStmt_eq ht) (assignStmt_eq ht) rfl

theorem operationNode {op : BinaryOp} (hop : op.isMutating = false) (hand : op ≠ .and)
    (hor : op ≠ .or) (hl : Takes S lhs.source.designates lhs.value m)
    (hr : Takes S rhs.source.designates rhs.value m') :
    Simulates S (.binary loc type op lhs rhs) (do
      let a ← m
      let b ← m'
      return M.binary op a b) := by
  have hvalue : Lowering.binaryValue loc type op lhs rhs =
      Lowering.operation loc type op lhs rhs := by
    cases op with
    | assign | compound | nullCoalesce => cases hop
    | and => exact absurd rfl hand
    | or => exact absurd rfl hor
    | _ => rfl
  have hassign : op.isAssignment = false := by
    cases op with
    | assign | compound => cases hop
    | _ => rfl
  refine .binaryOfValue hassign ?_
  rw [hvalue]
  exact operation hop hand hor hl hr

variable {op : UnaryOp} {isPost : Bool} {operand : Lowering}

theorem unary (hop : op.isStep = false) (h : Takes S operand.source.designates operand.value m) :
    Simulates S (.unary loc type op isPost operand) (do return M.unary op (← m)) := by
  have hvalue : unaryValue loc type op isPost operand = (do
      let h ← operand.value
      return ⟨h.stmts, .mkUnary loc op isPost h.value⟩) := if_neg (by simp [hop])
  have hstmt : unaryStmt loc type op isPost operand =
      storeOrDrop loc (unaryValue loc type op isPost operand) :=
    funext fun _ => if_neg (by simp [hop])
  refine .of_takes ?_ hstmt hstmt rfl
  have hnode (v : Expr) : eval M S.rounds (.mkUnary loc op isPost v) =
      (do return M.unary op (← eval M S.rounds v)) := by
    rw [Expr.mkUnary, eval, Exec.unary, if_neg (by simp [hop])]
  change Takes S _ (unaryValue loc type op isPost operand) _
  rw [hvalue]
  exact h.around hnode (fun _ _ _ _ hm => reads_pure hm) (fun _ _ hs => Bool.noConfusion hs)
    fun _ => rfl

section

variable (hop : op.isStep = true) (ht : ∀ how, operand.target how = pure ⟨[], .local loc' v⟩)
  (hv : S.written v.id = true) (hscope : S.scope v.id = true)
include hop ht hv hscope

/-- As a statement a step need not keep the old value. -/
theorem runs_step (yields : Bool) :
    Runs S S.scope yields none (unaryStmt loc type op isPost operand none)
      (Exec.unary op isPost m (pure (.local v.id))) := by
  intro s hs _
  have hstmt : unaryStmt loc type op isPost operand none = (do
      return (← step loc op operand).stmts) := if_pos (by simp [hop])
  rw [hstmt]
  simp only [step, ht, pure_bind, nil_append]
  refine gives_pure ⟨.refl, fun I K hc σ τ hm => steps_change ?_⟩
  have hstep := match_step op hm hc.before_rests hv hscope
  exact ⟨_, _, unary_step hop σ, nofun, hstep.known_mono (hc.before_le _ hstep.known)⟩

theorem stepNode : Simulates S (.unary loc type op isPost operand)
      (Exec.unary op isPost m (pure (.local v.id))) := by
  have htakes : Takes S false (unaryValue loc type op isPost operand)
      (Exec.unary op isPost m (pure (.local v.id))) := by
    unfold unaryValue
    rw [if_pos hop]
    cases isPost with
    | true => exact takes_stepAfter hop ht hv hscope
    | false => exact takes_step hop ht hv hscope
  have hstmt (l : Loc) (aim : Option Var) : Runs S S.scope true aim
      (unaryStmt loc type op isPost operand (aim.map (.local l)))
      (Exec.unary op isPost m (pure (.local v.id))) := by
    cases aim with
    | none => exact runs_step hop ht hv hscope true
    | some w =>
      have hstore : unaryStmt loc type op isPost operand (some (.local l w)) =
          storeOrDrop loc (unaryValue loc type op isPost operand)
            (some (.local l w)) := if_neg (by simp)
      rw [Option.map_some, hstore]
      exact htakes.runs true
  exact ⟨fun _ => htakes, hstmt, hstmt⟩

end

end Simulates

end LuaBackend.Normalize.Meaning
