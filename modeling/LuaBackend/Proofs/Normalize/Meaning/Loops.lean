import LuaBackend.Proofs.Normalize.Meaning.Statements

/-!
# Loops that keep their meaning

A loop whose condition needs statements becomes an endless loop with a
guard at the top of its body, which breaks where the condition fails. A
loop that tests after its body skips the guard in the first round, which a
temporary says it is.
-/

namespace LuaBackend.Normalize.Meaning

open Simulation Lowering Exec

variable {M : Machine} {S : Setting M} {m mc mb mg : Exec M M.Value} {K : Known M}
variable {Γ : Scope} {R : UInt32 → Prop} {yields : Bool} {σ τ : State M}
variable {loc : Loc} {cond : Lowering} {body : Option Lowering} {d : Bool}
variable {test : LoopTest}

def looping (test : LoopTest) (cond body : Exec M M.Value) (rounds : Nat) : Exec M M.Value :=
  match test with
  | .before => loop (testThen cond body) rounds
  | .after => loopAfter cond body rounds

def Keeping (S : Setting M) (R : UInt32 → Prop) (y : Exec M Unit) (m : Exec M M.Value) : Prop :=
  ∀ K, S.Admits K → Rests K (S.Keeps R) → ∀ σ τ, Match S.scope K σ τ →
    Agree (m σ) y τ (fun _ _ => Match S.scope K) (Match S.scope K)

theorem Runs.keeping {x : Norm (List Expr)} {s : TempSupply} (h : Runs S Γ yields none x m)
    (hΓ : ∀ y, S.scope y = true → Γ y = true) (hs : S.first ≤ s.next) :
    Gives x s fun stmts s' => s.next ≤ s'.next ∧
      Keeping S (Range s.next s'.next) (run M S.rounds stmts) m := by
  refine (h s hs fun _ hv => nomatch hv).mono fun stmts s' ⟨hle, hp⟩ => ⟨hle, ?_⟩
  intro K hg hK σ τ hm
  exact (hp K K (carries_none hg hK) σ τ hm).mono fun _ _ _ _ hr => hr.2.scope_mono hΓ

theorem yieldsNull_looping (test : LoopTest) (rounds : Nat) :
    YieldsNull (looping test mc mb rounds) false := by
  cases test with
  | before => exact yieldsNull_loop rounds
  | after =>
    cases rounds with
    | zero => exact fun _ _ _ h => nomatch h
    | succ n =>
      refine yieldsNull_bind fun again => ?_
      cases again with
      | true => exact yieldsNull_loop n
      | false => exact yieldsNull_pure

/-- The loops agree if conditions and bodies do. -/
theorem agree_looping {cond' body' : Exec M M.Value} (hm : Match Γ K σ τ)
    (hc : ∀ σ τ, Match Γ K σ τ → Agree (mc σ) cond' τ (Same Γ K) (Match Γ K))
    (hb : ∀ σ τ, Match Γ K σ τ → Agree (mb σ) body' τ (fun _ _ => Match Γ K) (Match Γ K))
    (rounds : Nat) :
    Agree (looping test mc mb rounds σ) (looping test cond' body' rounds) τ (Same Γ K)
      (Match Γ K) := by
  have hround (σ τ : State M) (hm : Match Γ K σ τ) := (agree_testThen (hc σ τ hm) hb).round
  cases test with
  | before => exact agree_loop hround rounds σ τ hm
  | after =>
    simp only [looping, loopAfter_eq_loopFrom]
    refine agree_loopFrom (Agree.round ?_) hround rounds
    refine (hb σ τ hm).bind (Q := fun r => Ends r (Same Γ K)) ?_
    exact fun _ _ _ _ hm' => agree_pure ⟨rfl, hm'⟩

/-- The condition of a plain loop has no statements to lose. -/
theorem runs_plainLoop (hp : Predicted cond) (hh : cond.source.hoists = false)
    (hc : Takes S d cond.value mc) (hb : SimulatesPart S body mb) :
    Runs S S.scope true none (plainLoop loc test cond body) (looping test mc mb S.rounds) := by
  intro s hs _
  refine ((hc s hs).and (hp.value s)).bind fun c s₁ ⟨⟨hle₁, hreal, _, _⟩, hquiet⟩ => ?_
  have hread : Quiet S c.value mc :=
    hreal.quiet (fun y hy => Nat.le_trans hs hy.1) (hquiet hh).stmts
  refine (gives_scope_runs hb (Nat.le_trans hs hle₁)).bind fun b s₂ ⟨hle₂, hrun⟩ =>
    gives_pure ⟨Nat.le_trans hle₁ hle₂, fun I K hcarries σ τ hm => steps_single ?_⟩
  have hrests : Rests K (S.Keeps (Range s₁.next s₂.next)) :=
    hcarries.slice_rests hle₁ (Nat.le_refl _)
  have hloop : eval M S.rounds (.loop loc test c.value (some b)) =
      looping test (eval M S.rounds c.value) (evalPart M S.rounds (some b)) S.rounds := by
    cases test <;> rfl
  rw [hloop]
  refine hcarries.reached_of_same (agree_looping hm (fun σ τ hm => ?_)
    (hrun K hcarries.before_admits hrests) S.rounds)
  exact (hread K hcarries.before_admits σ τ hm).agree hm.known

def guarded (cond : Exec M M.Value) : Exec M M.Value := do
  if M.truth (← cond) then return M.null else jump .brk

/-- To break at the top of a round is to end the loop there. -/
theorem round_guarded (cond body : Exec M M.Value) : Exec.round (do
    let _ ← guarded cond
    let _ ← body
    return true) = Exec.round (testThen cond body) := by
  funext σ
  rcases cond.cases σ with h | ⟨c, σ', h⟩ | ⟨j, σ', h⟩
  · simp only [Exec.round, testThen, guarded, bind_assoc, bind_of_none h]
  · simp only [Exec.round, testThen, guarded, bind_assoc, bind_of_ok h]
    by_cases ht : M.truth c = true
    · rw [if_pos ht, if_pos ht]
      rfl
    · rw [if_neg ht, if_neg ht]
      rfl
  · simp only [Exec.round, testThen, guarded, bind_assoc, bind_of_error h]

/-- The guard breaks unless the condition holds. -/
theorem Simulates.guard (h : Takes S cond.source.designates cond.value mc) :
    Simulates S (.guard loc cond) (guarded mc) := by
  let inner := Lowering.paren loc cond.source.type cond
  have hparen : Takes S inner.source.designates inner.value mc :=
    h.passing (fun _ => rfl) (fun _ => id) fun _ => rfl
  let test := Lowering.unary loc .bool .not false inner
  have htest : Simulates S test (do return M.unary .not (← mc)) := .unary rfl hparen
  have hbrk : SimulatesPart S (some (.jump (.brk loc))) (Exec.jump .brk) := Simulates.jump rfl rfl
  have hnone : SimulatesPart S none (pure M.null) := rfl
  have hite : Simulates S (.guard loc cond) _ := .ite (htest.value rfl) hbrk hnone
  have hguarded : guarded mc = (do
      let c ← (do return M.unary .not (← mc))
      if M.truth c then Exec.jump .brk else pure M.null) := by
    unfold guarded
    rw [bind_assoc]
    refine congrArg (mc >>= ·) (funext fun c => ?_)
    rw [pure_bind, M.truth_not]
    cases M.truth c <;> rfl
  rw [hguarded]
  exact hite

theorem guardedLoop_eq {guard : Lowering} : guardedLoop loc guard body = (do
    let gs ← guard.stmt none
    let bs ← partStmts body none
    return [.loop loc .before (.boolLit loc true) (some (.statements loc (gs ++ bs)))]) := by
  cases body with
  | none =>
    simp [guardedLoop, plainLoop, leaf, ofValue, scope, block, Lowering.sequence, partStmts]
    rfl
  | some =>
    simp [guardedLoop, plainLoop, leaf, ofValue, scope, block, Lowering.sequence, partStmts]
    rfl

def endlessRound (M : Machine) (rounds : Nat) (loc : Loc) (gs bs : List Expr) : Exec M Bool :=
  testThen (eval M rounds (.boolLit loc true))
    (evalPart M rounds (some (.statements loc (gs ++ bs))))

/-- A round of the endless loop does what a round of the source does. -/
theorem agree_endlessRound {gs bs : List Expr}
    (hg : Agree (mg σ) (run M S.rounds gs) τ (fun _ _ => Match Γ K) (Match Γ K))
    (hb : ∀ σ τ, Match Γ K σ τ →
      Agree (mb σ) (run M S.rounds bs) τ (fun _ _ => Match Γ K) (Match Γ K)) :
    Agree ((do let _ ← mg; let _ ← mb; return true) σ) (endlessRound M S.rounds loc gs bs) τ
      (Same Γ K) (Match Γ K) := by
  have hbody : Agree ((do let _ ← mg; mb) σ)
      (evalPart M S.rounds (some (.statements loc (gs ++ bs)))) τ (fun _ _ => Match Γ K)
      (Match Γ K) := by
    refine steps_scope (Q := fun τ' => ∃ a σ', (do let _ ← mg; mb) σ = some (.ok a, σ') ∧
      Match Γ K σ' τ') ?_
    rw [run_append]
    refine hg.bind (Q := fun r _ τ' => ∃ a σ', r = some (.ok a, σ') ∧ Match Γ K σ' τ') ?_
    exact fun _ _ σ' τ' hm' => hb σ' τ' hm'
  have hround : endlessRound M S.rounds loc gs bs = (do
      let _ ← evalPart M S.rounds (some (.statements loc (gs ++ bs)))
      return true) := by
    change (if M.truth (M.const (.bool true)) = true then _ else _) = _
    rw [M.truth_bool]
    rfl
  rw [hround, ← bind_bind]
  refine hbody.bind (Q := fun r => Ends r (Same Γ K)) ?_
  exact fun _ _ _ _ hm' => agree_pure ⟨rfl, hm'⟩

/-- The guard stands for a test before the body. -/
theorem runs_guardBefore (hc : Takes S cond.source.designates cond.value mc)
    (hb : SimulatesPart S body mb) :
    Runs S S.scope true none (guardedLoop loc (.guard loc cond) body)
      (looping .before mc mb S.rounds) := by
  intro s hs _
  have hguard : Runs S S.scope _ none ((guard loc cond).stmt none) (guarded mc) :=
    (Simulates.guard hc).stmt {} none
  rw [guardedLoop_eq]
  refine (hguard.keeping (fun _ => id) hs).bind fun gs s₁ ⟨hle₁, hgs⟩ => ?_
  refine ((runs_partStmts {} none hb).keeping (fun _ => id) (Nat.le_trans hs hle₁)).bind
    fun bs s₂ ⟨hle₂, hbs⟩ => gives_pure ⟨Nat.le_trans hle₁ hle₂,
      fun I K hcarries σ τ hm => steps_single ?_⟩
  have hK₁ : Rests K (S.Keeps (Range s.next s₁.next)) :=
    hcarries.slice_rests (Nat.le_refl _) hle₂
  have hK₂ : Rests K (S.Keeps (Range s₁.next s₂.next)) :=
    hcarries.slice_rests hle₁ (Nat.le_refl _)
  have hround (σ τ : State M) (hm : Match S.scope K σ τ) : Agree (Exec.round (testThen mc mb) σ)
        (round (endlessRound M S.rounds loc gs bs)) τ (Same S.scope K) (Match S.scope K) := by
    rw [← round_guarded]
    exact (agree_endlessRound (hgs K hcarries.before_admits hK₁ σ τ hm)
      (hbs K hcarries.before_admits hK₂)).round
  exact hcarries.reached_of_same (agree_loop hround S.rounds σ τ hm)

/-! ## Loops that test after their body -/

def skipFirst (loc : Loc) (first : Var) (gs : List Expr) : Expr :=
  .ite loc .void (.local loc first)
    (some (.statements loc [.binary loc .bool .assign (.local loc first) (.boolLit loc false)]))
    (some (.statements loc gs))

theorem guardAfterFirst_stmt_eq {first : Var} : (guardAfterFirst loc first cond).stmt none = (do
    let gs ← (guard loc cond).stmt none
    return [skipFirst loc first gs]) := by
  have hclear : scope (some (binary loc .bool .assign
      (.leaf (.local loc first)) (.leaf (.boolLit loc false)))) none =
      pure (.statements loc [.binary loc .bool .assign (.local loc first) (.boolLit loc false)]) :=
    rfl
  have hguard : scopeIfAny (some (guard loc cond)) none = (do
      let gs ← (guard loc cond).stmt none
      return some (.statements loc gs)) := by
    simp only [scopeIfAny, scope, bind_assoc, pure_bind]
    rfl
  unfold guardAfterFirst
  dsimp only
  rw [ite_stmt_eq, hclear, hguard]
  simp only [leaf, ofValue, pure_bind, bind_assoc]
  rfl

section SkipFirst

variable {first : Var} {gs : List Expr} {rounds : Nat} {α : Type} {r : Result M α}
variable {Q : Unit → State M → Prop} {J : State M → State M → Prop}

/-- In the first round the guard is not run. -/
theorem steps_skipFirst_true (h : τ.locals first.id = M.const (.bool true))
    (hq : Q () (τ.set first.id (M.const (.bool false)))) :
    Steps r (run M rounds [skipFirst loc first gs]) τ Q J := by
  refine steps_ite (steps_of_ok (eval_local h) ?_)
  rw [M.truth_bool, if_pos rfl]
  exact steps_scope (steps_assign (steps_of_ok rfl hq))

/-- In later rounds the guard is run. -/
theorem steps_skipFirst_false (h : τ.locals first.id = M.const (.bool false))
    (hq : Steps r (run M rounds gs) τ (fun _ => Q ()) J) :
    Steps r (run M rounds [skipFirst loc first gs]) τ Q J := by
  refine steps_ite (steps_of_ok (eval_local h) ?_)
  rw [M.truth_bool]
  exact steps_scope hq

end SkipFirst

/-- The guard of each later round stands for the test after the last. -/
theorem runs_guardAfter (hc : Takes S cond.source.designates cond.value mc)
    (hb : SimulatesPart S body mb) :
    Runs S S.scope true none (do
        let first ← freshTemp .bool
        let stmts ← guardedLoop loc (.guardAfterFirst loc first cond) body
        return .varDecl loc first (some (.boolLit loc true)) :: stmts)
      (looping .after mc mb S.rounds) := by
  intro s hs _
  refine gives_freshTemp_next.bind fun first s₁ ⟨hid, hs₁⟩ => ?_
  have hguard : Runs S S.scope _ none ((guard loc cond).stmt none) (guarded mc) :=
    (Simulates.guard hc).stmt {} none
  rw [guardedLoop_eq, guardAfterFirst_stmt_eq]
  simp only [bind_assoc, pure_bind]
  refine (hguard.keeping (fun _ => id) (by omega)).bind fun gs s₂ ⟨hle₂, hgs⟩ => ?_
  refine ((runs_partStmts {} none hb).keeping (fun _ => id) (by omega)).bind fun bs s₃ ⟨hle₃, hbs⟩ =>
    gives_pure ⟨by omega, fun I K hcarries σ τ hm => ?_⟩
  have hfirst := S.first_le
  have htemp : tempBase.toNat ≤ first.id.toNat := by omega
  have hrange : Range s.next s₃.next first.id := ⟨by omega, by omega⟩
  -- in later rounds the temporary is false, which no part of the loop changes
  let later : Known M := fun l => K l ∧ l first.id = M.const (.bool false)
  have hlater : S.Admits later := hcarries.before_admits.and _
  have hrests (lo hi : Nat) (hlo : first.id.toNat < lo) (hhi : hi ≤ s₃.next) :
      Rests later (S.Keeps (Range lo hi)) := by
    refine Rests.and (hcarries.slice_rests (by omega) hhi)
      (rests_local (Setting.keeps_temp htemp fun hr => ?_))
    have := hr.1
    omega
  have hbody := hbs later hlater (hrests s₂.next s₃.next (by omega) (Nat.le_refl _))
  have hset (b : M.Value) {σ τ : State M} (hm : Match S.scope K σ τ) :
      Match S.scope K σ (τ.set first.id b) :=
    hm.set_target hcarries.before_rests (Setting.not_scope htemp) fun hk => hk.1 hrange
  have hagain (σ τ : State M) (hm : Match S.scope later σ τ) : Agree (Exec.round (testThen mc mb) σ)
        (round (endlessRound M S.rounds loc [skipFirst loc first gs] bs)) τ
        (Same S.scope later) (Match S.scope later) := by
    rw [← round_guarded]
    refine (agree_endlessRound (steps_skipFirst_false hm.known.2 ?_) hbody).round
    exact hgs later hlater (hrests s₁.next s₂.next (by omega) hle₃) σ τ hm
  have hstart (σ τ : State M) (hm : Match S.scope K σ τ)
      (ht : τ.locals first.id = M.const (.bool true)) :
      Agree (round (do let _ ← mb; return true) σ)
        (round (endlessRound M S.rounds loc [skipFirst loc first gs] bs)) τ
        (Same S.scope later) (Match S.scope later) := by
    have hm' := hset (M.const (.bool false)) hm
    have hskip : Agree ((pure M.null : Exec M M.Value) σ)
        (run M S.rounds [skipFirst loc first gs]) τ (fun _ _ => Match S.scope later)
        (Match S.scope later) :=
      steps_skipFirst_true ht
        ⟨M.null, σ, rfl, hm'.known_mono ⟨hm'.known, State.locals_set_self _ _ _⟩⟩
    exact (agree_endlessRound hskip hbody).round
  have hfresh := hstart σ _ (hset (M.const (.bool true)) hm) (State.locals_set_self _ _ _)
  refine steps_declared rfl (steps_single ?_)
  have hloop : eval M S.rounds (.loop loc .before (.boolLit loc true)
      (some (.statements loc ([skipFirst loc first gs] ++ bs)))) =
      loopFrom (endlessRound M S.rounds loc [skipFirst loc first gs] bs)
        (endlessRound M S.rounds loc [skipFirst loc first gs] bs) S.rounds := loop_eq_loopFrom _
  rw [hloop]
  simp only [looping, loopAfter_eq_loopFrom]
  refine (Steps.mono (agree_loopFrom hfresh hagain S.rounds) ?_).exit_mono
    fun _ _ hj => hj.known_mono hj.known.1
  rintro _ τ' ⟨a, σ', hσ, -, hm'⟩
  exact ⟨a, σ', hσ, hcarries.reached (hm'.known_mono hm'.known.1)⟩

theorem Simulates.loop (hp : Predicted cond) (hc : Takes S cond.source.designates cond.value mc)
    (hb : SimulatesPart S body mb) :
    Simulates S (.loop loc test cond body) (looping test mc mb S.rounds) := by
  refine .ofNull rfl (yieldsNull_looping test _) ?_
  cases hh : cond.source.hoists with
  | false => exact runs_plainLoop hp hh hc hb
  | true =>
    cases test with
    | before => exact runs_guardBefore hc hb
    | after => exact runs_guardAfter hc hb

end LuaBackend.Normalize.Meaning
