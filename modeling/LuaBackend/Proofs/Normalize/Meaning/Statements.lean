import LuaBackend.Proofs.Normalize.Meaning.Operators

/-!
# Statements that keep their meaning

Statements pass their aim on to the last statement of every branch. What
runs before leaves the aim alone. Where a branch ends without storing
anything, the aim is still null, and so is the value of the branch.
-/

namespace LuaBackend.Normalize.Meaning

open Simulation Lowering Exec Expr

variable {M : Machine} {S : Setting M} {m m' : Exec M M.Value} {aim : Option Var}
variable {R R' : UInt32 → Prop} {Γ Γ' : Scope} {yields yields' : Bool} {stmts : List Expr}
variable {loc loc' : Loc} {type : Ty} {d : Bool} {I K : Known M} {σ τ : State M}
variable {x : Norm (List Expr)} {part : Option Lowering} {s : TempSupply} {e : Expr}
variable {exprs : List Lowering} {body : Option Lowering} {catches : List (Handler Lowering)}

/-! ## Aims -/

theorem Setting.Keeps.spares_none {y : UInt32} (h : S.Keeps R y) : S.Spares R none y :=
  ⟨h, nofun⟩

theorem Carries.mono (h : Carries S yields aim R I K) (hR : ∀ y, R' y → R y)
    (hy : yields = true → yields' = true) : Carries S yields' aim R' I K where
  admits := h.admits
  rests := h.rests.mono fun _ hy => ⟨hy.1.mono hR, hy.2⟩
  before_rests := h.before_rests.mono fun _ hy => hy.mono hR
  before_le := h.before_le
  ready l hl v hv := (h.ready l hl v hv).imp_left hy

/-- Without an aim everything is known to the end. -/
theorem carries_none (hg : S.Admits K) (hK : Rests K (S.Keeps R)) : Carries S yields none R K K :=
  ⟨hg, hK.mono fun _ => Setting.Keeps.spares_none, hK, fun _ => id, nofun⟩

theorem Carries.drop (h : Carries S yields aim R I K) : Carries S yields' none R K K :=
  carries_none h.before_admits h.before_rests

section Ranges

variable {lo lo' hi hi' : Nat}

section

variable (h : Carries S yields aim (Range lo' hi') I K) (hlo : lo' ≤ lo) (hhi : hi ≤ hi')
include h hlo hhi

/-- What is known while statements run is known while some of them do. -/
theorem Carries.slice (hy : yields = true → yields' = true) :
    Carries S yields' aim (Range lo hi) I K :=
  h.mono (fun _ hr => hr.mono hlo hhi) hy

theorem Carries.slice_rests : Rests K (S.Keeps (Range lo hi)) := rests_range h.before_rests hlo hhi

end

theorem below_trans (h : ∀ v ∈ aim, v.id.toNat < lo) (hle : lo ≤ hi) :
    ∀ v ∈ aim, v.id.toNat < hi := fun v hv => Nat.lt_of_lt_of_le (h v hv) hle

end Ranges

theorem Reached.scope_mono {a : M.Value} (h : Reached Γ I aim a () σ τ)
    (hΓ : ∀ y, Γ' y = true → Γ y = true) : Reached Γ' I aim a () σ τ := by
  refine ⟨h.1, h.2.scope_mono fun y hy => ?_⟩
  cases aim with
  | none => exact hΓ y hy
  | some =>
    simp only [apart, Scope.without, Bool.and_eq_true] at hy ⊢
    exact ⟨hy.1, hΓ y hy.2⟩

/-- Nothing is stored, and the source ends with null. -/
theorem Carries.reached_null (h : Carries S false aim R I K) (hm : Match Γ K σ τ) :
    Reached Γ I aim M.null () σ τ := by
  refine ⟨fun v hv => ?_, match_apart (hm.known_mono (h.before_le _ hm.known))⟩
  rcases h.ready _ hm.known v hv with hy | ⟨-, hnull⟩
  · cases hy
  · exact hnull

theorem Carries.reached {a : M.Value} (h : Carries S yields none R I K) (hm : Match Γ K σ τ) :
    Reached Γ I none a () σ τ :=
  ⟨nofun, hm.known_mono (h.before_le _ hm.known)⟩

theorem Carries.reached_of_same {r : Result M M.Value} {y : Exec M M.Value}
    {J : State M → State M → Prop} (h : Carries S yields none R I K)
    (ha : Agree r y τ (Same Γ K) J) : Steps r y τ (fun _ => Ends r (Reached Γ I none) ()) J :=
  Steps.mono ha fun _ _ ⟨a, σ', hσ, _, hm⟩ => ⟨a, σ', hσ, h.reached hm⟩

/-- A statement that evaluates the value and goes on like the source. -/
theorem Realizes.performs {h : Hoisted} {k k' : M.Value → Exec M M.Value}
    (hr : Realizes S R h m) (hc : Carries S yields aim R I K) (hm : Match S.scope K σ τ)
    (heval : eval M S.rounds e = (eval M S.rounds h.value >>= k'))
    (hk : ∀ a σ' τ', Match S.scope K σ' τ' →
      Agree (k a σ') (k' a) τ' (fun b _ => Reached Γ I aim b ()) (Match S.scope K)) :
    Agree ((m >>= k) σ) (run M S.rounds (h.stmts ++ [e])) τ (Reached Γ I aim)
      (Match S.scope K) := by
  rw [run_append]
  refine (hr K hc.before_admits hc.before_rests σ τ hm).source_bind.bind
    fun _ τ₁ h₁ => steps_single ?_
  rw [heval]
  refine (h₁.2.agree h₁.1).bind (Q := fun r _ => Ends r (Reached Γ I aim) ()) ?_
  rintro a _ σ' τ' ⟨rfl, hm'⟩
  exact hk a σ' τ' hm'

/-- The aim is declared first, as null. -/
theorem Performs.declared {v : Var} {C : UInt32 → Prop}
    (h : Performs S Γ yields (some v) R stmts m) (hg : S.Admits I) (hI : Rests I C)
    (hC : ∀ y, C y → S.Keeps R y) (hv : ¬ C v.id) (hkept : S.Keeps R v.id)
    (hscope : S.scope v.id = false) (hm : Match S.scope I σ τ) :
    Agree (m σ) (run M S.rounds (.varDecl loc v none :: stmts)) τ (Reached Γ I (some v))
      (Match S.scope I) := by
  have hcarries : Carries S yields (some v) R I _ :=
    carries_holding hg (rests_spares hI hC hv) hkept (.inr rfl)
  have hm₁ := hm.set_target (v := M.null) hI hscope hv
  have hrun := h I _ hcarries σ _ (hm₁.known_mono ⟨hm₁.known, State.locals_set_self _ _ _⟩)
  exact steps_declared rfl (hrun.exit_mono fun _ _ hj => hj.known_mono hj.known.1)

theorem Performs.mono (h : Performs S Γ yields aim R stmts m) (hR : ∀ y, R y → R' y)
    (hΓ : ∀ y, Γ' y = true → Γ y = true) : Performs S Γ' yields aim R' stmts m :=
  fun I K hc σ τ hm => (h I K (hc.mono hR id) σ τ hm).mono fun _ _ _ _ hr => hr.scope_mono hΓ

theorem Runs.scope_mono (h : Runs S Γ yields aim x m) (hΓ : ∀ y, Γ' y = true → Γ y = true) :
    Runs S Γ' yields aim x m := fun s hs hbelow =>
  (h s hs hbelow).mono fun _ _ ⟨hle, hp⟩ => ⟨hle, hp.mono (fun _ => id) hΓ⟩

def YieldsNull (m : Exec M M.Value) (yields : Bool) : Prop :=
  ∀ σ a σ', m σ = some (.ok a, σ') → a = M.null ∧ yields = false

/-- Statements that yield null store nothing. -/
theorem Runs.aimed (h : Runs S Γ yields' none x m) (hnull : YieldsNull m yields) :
    Runs S Γ yields aim x m := by
  intro s hs hbelow
  refine (h s hs nofun).mono fun stmts s' ⟨hle, hp⟩ => ⟨hle, ?_⟩
  intro I K hc σ τ hm
  refine Steps.mono (hp K K hc.drop σ τ hm) ?_
  rintro _ τ' ⟨a, σ', hσ, -, hm'⟩
  obtain ⟨rfl, rfl⟩ := hnull _ _ _ hσ
  exact ⟨_, σ', hσ, hc.reached_null hm'⟩

theorem Runs.takes_null (h : Runs S Γ yields' none x m) (hnull : YieldsNull m yields)
    (hΓ : ∀ y, S.scope y = true → Γ y = true) :
    Takes S d (do return ⟨← x, .nullLit loc⟩) m := by
  intro s hs
  refine (h s hs nofun).bind fun stmts s' ⟨hle, hp⟩ =>
    gives_pure ⟨hle, fun I hg hI σ τ hm => ?_, fun _ l => ⟨M.null, fun _ _ => rfl⟩, nofun⟩
  refine Steps.mono (hp I I (carries_none hg hI) σ τ hm) ?_
  rintro _ τ' ⟨a, σ', hσ, -, hm'⟩
  obtain ⟨rfl, -⟩ := hnull _ _ _ hσ
  exact ⟨hm'.known, reads_of_ok hσ rfl (hm'.scope_mono hΓ)⟩

theorem Simulates.ofNull (hb : e.isBlockLike = false) (hnull : YieldsNull m e.yields)
    (h : Runs S (S.scope.after e) true none x m) :
    Simulates S (.ofStmt e fun _ => x) m := by
  refine ⟨fun _ => ?_, fun _ _ => h.aimed hnull, fun _ _ => h.aimed hnull⟩
  unfold ofStmt
  rw [if_neg (by simp [hb])]
  exact h.takes_null hnull fun _ => Scope.le_after

theorem yieldsNull_bind {α : Type} {x : Exec M α} {f : α → Exec M M.Value}
    (h : ∀ a, YieldsNull (f a) yields) : YieldsNull (x >>= f) yields := by
  intro σ a σ' hσ
  rcases x.cases σ with hx | ⟨b, σ₁, hx⟩ | ⟨j, σ₁, hx⟩
  · exact nomatch (bind_of_none hx).symm.trans hσ
  · exact h b σ₁ a σ' ((bind_of_ok hx).symm.trans hσ)
  · exact nomatch (bind_of_error hx).symm.trans hσ

theorem yieldsNull_pure : YieldsNull (pure M.null : Exec M M.Value) false := by
  intro σ a σ' h
  cases h
  exact ⟨rfl, rfl⟩

theorem yieldsNull_jump {j : Jump M.Value} : YieldsNull (jump j) yields :=
  nofun

theorem Takes.jumps {x : Norm Hoisted} {f : Expr → Expr} {j : M.Value → Jump M.Value}
    (h : Takes S d x m)
    (heval : ∀ v, eval M S.rounds (f v) = (do jump (j (← eval M S.rounds v)))) :
    Runs S S.scope yields none (do let h ← x; return h.stmts ++ [f h.value])
      (do jump (j (← m))) := by
  intro s hs _
  exact (h s hs).bind fun k s' ⟨hle, hr, _, _⟩ => gives_pure ⟨hle, fun I K hc σ τ hm =>
    hr.performs hc hm (heval _) fun a σ' τ' hm' => agree_jump hm'⟩

namespace Simulates

variable {value : Lowering}

theorem jump {j : Jump M.Value} (hb : e.isBlockLike = false)
    (heval : eval M S.rounds e = jump j) : Simulates S (.jump e) (jump j) := by
  refine .ofNull hb yieldsNull_jump fun s hs _ => gives_pure ⟨.refl, ?_⟩
  intro I K hc σ τ hm
  refine steps_single ?_
  rw [heval]
  exact ⟨σ, rfl, hm⟩

theorem ret (h : Takes S value.source.designates value.value m) :
    Simulates S (.ret loc (some value)) (do Exec.jump (.ret (← m))) :=
  .ofNull rfl (yieldsNull_bind fun _ => yieldsNull_jump)
    (Takes.jumps (f := fun v => .ret loc (some v)) (j := .ret) h fun _ => rfl)

theorem retNone : Simulates S (.ret loc none) (Exec.jump (.ret M.null)) := by
  refine .ofNull rfl yieldsNull_jump fun s hs _ => gives_pure ⟨.refl, ?_⟩
  exact fun I K hc σ τ hm => steps_single ⟨σ, rfl, hm⟩

theorem throw (h : Takes S value.source.designates value.value m) :
    Simulates S (.throw loc value) (do Exec.jump (.throw (← m))) :=
  .ofNull rfl (yieldsNull_bind fun _ => yieldsNull_jump) (h.jumps fun _ => rfl)

end Simulates

section Declarations

variable {v : Var}

theorem yieldsNull_decl : YieldsNull (do set v.id (← m); return M.null) false :=
  yieldsNull_bind fun _ => yieldsNull_bind fun _ => yieldsNull_pure

namespace Simulates

variable {init : Lowering}

theorem varDeclNone (hv : S.written v.id = true) :
    Simulates S (.varDecl loc v none) (do set v.id (← pure M.null); return M.null) := by
  refine .ofNull rfl yieldsNull_decl fun s hs _ => gives_pure ⟨.refl, ?_⟩
  intro I K hc σ τ hm
  have hset := hm.set (v := M.null) hc.before_rests (Setting.not_keeps hv)
  exact steps_single (steps_of_ok rfl ⟨M.null, _, rfl, hc.reached hset⟩)

theorem varDecl (hv : S.written v.id = true) (hb : init.source.bare.isBlockLike = false)
    (h : Takes S init.source.designates init.value m) :
    Simulates S (.varDecl loc v (some init)) (do set v.id (← m); return M.null) := by
  refine .ofNull rfl yieldsNull_decl fun s hs _ => ?_
  rw [if_neg (by simp [hb])]
  refine (h s hs).bind fun k s' ⟨hle, hr, _, _⟩ => gives_pure ⟨hle, fun I K hc σ τ hm => ?_⟩
  refine hr.performs hc hm rfl fun a σ₂ τ₂ hm₂ => steps_of_ok rfl ?_
  have hset := hm₂.set (v := a) hc.before_rests (Setting.not_keeps hv)
  exact ⟨M.null, _, rfl, hc.reached hset⟩

/-- A block stores into the declared local itself, which is null before and
not yet in scope. -/
theorem varDeclInto (hv : S.written v.id = true) (hscope : S.scope v.id = false)
    (hb : init.source.bare.isBlockLike = true) (h : Simulates (S.sparing v.id) init m) :
    Simulates S (.varDecl loc v (some init)) (do set v.id (← m); return M.null) := by
  refine .ofNull rfl yieldsNull_decl fun s hs _ => ?_
  rw [if_pos hb]
  have hlow := S.written_low _ hv
  have hfirst := S.first_le
  have hbelow : ∀ w ∈ some v, w.id.toNat < s.next := forall_mem_some.2 (by omega)
  refine (h.stmt loc (some v) s hs hbelow).bind fun stmts s' ⟨hle, hp⟩ =>
    gives_pure ⟨hle, fun I K hc σ τ hm => ?_⟩
  have hkept : (S.sparing v.id).Keeps (Range s.next s'.next) v.id :=
    ⟨fun hr => by have := hr.1; omega, by simp [Setting.sparing, Scope.without]⟩
  refine Steps.mono (Steps.source_bind (hp.declared hc.before_admits hc.before_rests
    (fun _ hy => hy.sparing) (Setting.not_keeps hv) hkept hscope hm)) ?_
  rintro _ τ₂ ⟨a, σ₂, hσ, hreached⟩
  refine ⟨M.null, _, bind_of_ok hσ, hc.reached ?_⟩
  exact hreached.set_source.scope_mono fun _ => Scope.bind_mono fun _ => Scope.le_after

end Simulates

end Declarations

/-! ## Sequences and blocks -/

/-- The temporary that statements store into is null at first. -/
theorem takes_valueOfStmts {x : Option Expr → Norm (List Expr)} (ht : e.type.hasValues = true)
    (h : ∀ t, Runs S Γ yields (some t) (x (some (.local e.loc t))) m)
    (hΓ : ∀ y, S.scope y = true → Γ y = true) : Takes S d (valueOfStmts e x) m := by
  intro s hs
  have hvalues : ¬ (e.type.isUntyped || e.type.isKind .void) = true := by
    simpa [Ty.hasValues] using ht
  unfold valueOfStmts
  rw [if_neg hvalues]
  refine gives_freshTemp_next.bind fun t s₁ ⟨hid, hs₁⟩ => ?_
  have hfirst := S.first_le
  have htemp : tempBase.toNat ≤ t.id.toNat := by omega
  have hbelow : ∀ v ∈ some t, v.id.toNat < s₁.next := forall_mem_some.2 (by omega)
  refine (h t s₁ (by omega) hbelow).bind fun stmts s₂ ⟨hle, hp⟩ => ?_
  have hrange : Range s.next s₂.next t.id := ⟨by omega, by omega⟩
  refine gives_pure ⟨by omega, fun I hg hI σ τ hm => ?_,
    fun _ => fixed_temp ⟨htemp, hrange.2⟩, nofun⟩
  have hkept : S.Keeps (Range s₁.next s₂.next) t.id :=
    Setting.keeps_temp htemp fun hr => by have := hr.1; omega
  refine Steps.mono (hp.declared hg hI (fun _ hy => hy.mono fun _ hr => hr.mono (by omega) .refl)
    (fun hk => hk.1 hrange) hkept (Setting.not_scope htemp) hm) ?_
  rintro _ τ₂ ⟨a, σ₂, hσ, hreached⟩
  have hm₂ := hreached.match_temp htemp hΓ
  exact ⟨hm₂.known, reads_of_ok hσ (eval_local (hreached.1 t rfl)) hm₂⟩

def Setting.within (S : Setting M) (Γ : Scope) (h : Γ.Low) : Setting M :=
  { S with
    scope := Γ
    scope_low := h }

theorem Carries.within {h : Γ.Low} (hc : Carries S yields aim R I K) :
    Carries (S.within Γ h) yields aim R I K :=
  ⟨hc.admits, hc.rests, hc.before_rests, hc.before_le, hc.ready⟩

/-- Each lowering simulates its node in the scope that those before it leave. -/
def SimulatesSeq (S : Setting M) : List Lowering → Prop
  | [] => True
  | l :: rest => Simulates S l (eval M S.rounds l.source) ∧
    ∃ h : (S.scope.after l.source).Low, SimulatesSeq (S.within (S.scope.after l.source) h) rest

/-- Nodes one after the other; the last one stores into the aim. -/
theorem runs_sequence {ls : List Lowering} (h : SimulatesSeq S ls) (last : M.Value)
    (hlast : ls = [] → last = M.null) :
    Runs S S.scope (yieldsLast (ls.map source)) aim (sequence (aim.map (.local loc)) ls)
      (evalSeq M S.rounds last (ls.map source)) := by
  induction ls generalizing S last with
  | nil =>
    intro s _ _
    refine gives_pure ⟨.refl, fun I K hc σ τ hm => ?_⟩
    rw [hlast rfl]
    exact agree_pure (hc.reached_null hm)
  | cons l rest ih =>
    obtain ⟨hl, hlow, hrest⟩ := h
    cases rest with
    | nil =>
      have hone : evalSeq M S.rounds last [l.source] = eval M S.rounds l.source :=
        bind_pure_self _
      rw [List.map_cons, List.map_nil, hone]
      exact (hl.stmt loc aim).scope_mono fun _ => Scope.le_after
    | cons =>
      intro s hs hbelow
      refine (hl.stmt loc none s hs nofun).bind fun stmts s₁ ⟨hle₁, hp₁⟩ => ?_
      refine (ih hrest M.null nofun s₁ (Nat.le_trans hs hle₁) (below_trans hbelow hle₁)).bind
        fun stmts₂ s₂ ⟨hle₂, hp₂⟩ => gives_pure ⟨Nat.le_trans hle₁ hle₂, ?_⟩
      intro I K hc σ τ hm
      -- Only the last node has the aim; the ones before it leave it as it is.
      have hc₁ : Carries S l.source.yields none (Range s.next s₁.next) K K :=
        (hc.slice .refl hle₂ id).drop
      have hc₂ : Carries S _ aim (Range s₁.next s₂.next) I K := hc.slice hle₁ .refl id
      rw [run_append]
      refine (hp₁ K K hc₁ σ τ hm).bind (Q := fun r => Ends r (Reached S.scope I aim)) ?_
      rintro a _ σ₁ τ₁ ⟨-, hm₁⟩
      have hrun := hp₂ I K hc₂.within σ₁ τ₁ hm₁
      refine (Agree.mono hrun fun _ _ _ _ hr => hr.scope_mono fun _ => Scope.le_after).exit_mono ?_
      exact fun _ _ hj => hj.scope_mono fun _ => Scope.le_after

theorem Runs.block (h : Runs S Γ yields aim x m) : Runs S Γ yields aim (do
        let stmts ← x
        return if stmts.isEmpty then [] else [.statements loc stmts]) m := by
  intro s hs hbelow
  refine (h s hs hbelow).bind fun stmts s' ⟨hle, hp⟩ => gives_pure ⟨hle, fun I K hc σ τ hm => ?_⟩
  have hrun := hp I K hc σ τ hm
  cases stmts with
  | nil => exact hrun
  | cons => exact steps_single (steps_statements hrun)

theorem runs_block (h : SimulatesSeq S exprs) : Runs S S.scope (yieldsLast (exprs.map source)) aim
    ((block loc type exprs).stmt (aim.map (.local loc')))
    (evalSeq M S.rounds M.null (exprs.map source)) :=
  (runs_sequence h M.null fun _ => rfl).block

/-- Blocks have a scope of their own. -/
theorem Simulates.block (h : SimulatesSeq S exprs) : Simulates S (.block loc type exprs)
    (evalSeq M S.rounds M.null (exprs.map source)) where
  value hv := by
    cases exprs with
    | nil =>
      have hnull : Quiet S (.nullLit loc) (pure M.null) := fun _ _ _ _ hm => reads_pure hm
      exact fun s _ => gives_pure ⟨.refl, hnull.realizes rfl,
        fun _ l => ⟨M.null, fun _ _ => rfl⟩, nofun⟩
    | cons e rest =>
      have htype : type.hasValues = true := hv
      have hruns (t : Var) : Runs S S.scope _ (some t)
          ((block loc type (e :: rest)).stmt (some (.local loc t))) _ := runs_block h
      exact takes_valueOfStmts (e := (block loc type (e :: rest)).source) htype hruns fun _ => id
  stmt _ _ := runs_block h
  body _ _ := runs_sequence h M.null fun _ => rfl

/-! ## Parts -/

def Acts (S : Setting M) (yields : Bool) (aim : Option Var) (R : UInt32 → Prop)
    (part : Option Expr) (m : Exec M M.Value) : Prop :=
  ∀ I K, Carries S yields aim R I K → ∀ σ τ, Match S.scope K σ τ →
    Agree (m σ) (evalPart M S.rounds part) τ (fun a _ => Reached S.scope I aim a ())
      (Match S.scope K)

/-- An optional part does what the computation does, which is nothing if
there is no part. -/
def SimulatesPart (S : Setting M) : Option Lowering → Exec M M.Value → Prop
  | none, m => m = pure M.null
  | some l, m => Simulates S l m

theorem Acts.mono {part : Option Expr} (h : Acts S yields aim R part m) (hR : ∀ y, R y → R' y)
    (hy : yields' = true → yields = true) : Acts S yields' aim R' part m :=
  fun I K hc => h I K (hc.mono hR hy)

theorem Performs.acts (h : Performs S Γ yields aim R stmts m)
    (hΓ : ∀ y, S.scope y = true → Γ y = true) :
    Acts S yields aim R (some (.statements loc stmts)) m := by
  intro I K hc σ τ hm
  refine steps_scope (Q := fun τ' => ∃ a σ', m σ = some (.ok a, σ') ∧
    Reached S.scope I aim a () σ' τ') (Steps.mono (h I K hc σ τ hm) ?_)
  rintro _ τ' ⟨a, σ', hσ, hr⟩
  exact ⟨a, σ', hσ, hr.scope_mono hΓ⟩

theorem acts_nothing {part : Option Expr} (h : evalPart M S.rounds part = pure M.null) :
    Acts S false aim R part (pure M.null) := by
  intro I K hc σ τ hm
  rw [h]
  exact agree_pure (hc.reached_null hm)

theorem gives_scope_acts (loc : Loc) (aim : Option Var) (h : SimulatesPart S part m)
    (hs : S.first ≤ s.next) (hbelow : ∀ v ∈ aim, v.id.toNat < s.next) :
    Gives (scope part (aim.map (.local loc))) s fun b s' => s.next ≤ s'.next ∧
      Acts S (yieldsPart (part.map source)) aim (Range s.next s'.next) (some b) m := by
  cases part with
  | none =>
    cases h
    exact gives_pure ⟨.refl, acts_nothing rfl⟩
  | some =>
    exact (h.body loc aim s hs hbelow).bind fun stmts s' ⟨hle, hp⟩ =>
      gives_pure ⟨hle, hp.acts fun _ => Scope.le_after⟩

theorem gives_scope_runs (h : SimulatesPart S part m) (hs : S.first ≤ s.next) :
    Gives (scope part none) s fun b s' => s.next ≤ s'.next ∧
      ∀ K, S.Admits K → Rests K (S.Keeps (Range s.next s'.next)) → ∀ σ τ, Match S.scope K σ τ →
        Agree (m σ) (evalPart M S.rounds (some b)) τ (fun _ _ => Match S.scope K)
          (Match S.scope K) := by
  have hscope := gives_scope_acts {} none h hs nofun
  refine hscope.mono fun b s' ⟨hle, hact⟩ => ⟨hle, fun K hg hK σ τ hm => ?_⟩
  exact (hact K K (carries_none hg hK) σ τ hm).mono fun _ _ _ _ hr => hr.2

def scopeIfAny (part : Option Lowering) (assignee : Option Expr) : Norm (Option Expr) :=
  match part with
  | none => pure none
  | some l => do return some (← scope (some l) assignee)

theorem gives_scopeIfAny (h : SimulatesPart S part m) (hs : S.first ≤ s.next)
    (hbelow : ∀ v ∈ aim, v.id.toNat < s.next) :
    Gives (scopeIfAny part (aim.map (.local loc))) s fun b s' => s.next ≤ s'.next ∧
      Acts S (yieldsPart (part.map source)) aim (Range s.next s'.next) b m := by
  cases part with
  | none =>
    cases h
    exact gives_pure ⟨.refl, acts_nothing rfl⟩
  | some => exact (gives_scope_acts loc aim h hs hbelow).bind fun b s' hb => gives_pure hb

def partStmts (part : Option Lowering) (assignee : Option Expr) : Norm (List Expr) :=
  match part with
  | none => pure []
  | some l => l.stmt assignee

theorem runs_partStmts (loc : Loc) (aim : Option Var) (h : SimulatesPart S part m) :
    Runs S S.scope (yieldsPart (part.map source)) aim
      (partStmts part (aim.map (.local loc))) m := by
  cases part with
  | none =>
    cases h
    exact fun s _ _ => gives_pure ⟨.refl, fun I K hc σ τ hm => agree_pure (hc.reached_null hm)⟩
  | some => exact (h.stmt loc aim).scope_mono fun _ => Scope.le_after

/-- A node whose value is stored by its statements. -/
theorem Simulates.ofBlockLike {x : Option Expr → Norm (List Expr)} (hb : e.isBlockLike = true)
    (htype : e.valued = true → e.type.hasValues = true) (hafter : S.scope.after e = S.scope)
    (h : ∀ loc aim, Runs S S.scope e.yields aim (x (aim.map (.local loc))) m) :
    Simulates S (.ofStmt e x) m where
  value hv := by
    unfold ofStmt
    rw [if_pos hb]
    exact takes_valueOfStmts (htype hv) (fun t => h e.loc (some t)) fun _ => id
  stmt loc aim := by
    rw [source_ofStmt, hafter]
    exact h loc aim
  body loc aim := by
    rw [source_ofStmt, hafter]
    exact h loc aim

section Branches

variable {cond : Lowering} {onTrue onFalse : Option Lowering} {mc mt mf : Exec M M.Value}

theorem ite_stmt_eq (assignee : Option Expr) :
    (ite loc type cond onTrue onFalse).stmt assignee = (do
      let c ← cond.value
      let t ← scope onTrue assignee
      let f ← scopeIfAny onFalse assignee
      return c.stmts ++ [.ite loc .void c.value (some t) f]) := by
  cases onFalse with
  | none => rfl
  | some => simp [Lowering.ite, Lowering.ofStmt, scopeIfAny]

/-- Both branches store into the aim. -/
theorem runs_ite (hc : Takes S d cond.value mc) (ht : SimulatesPart S onTrue mt)
    (hf : SimulatesPart S onFalse mf) :
    Runs S S.scope (yieldsPart (onTrue.map source) && yieldsPart (onFalse.map source)) aim
      ((ite loc type cond onTrue onFalse).stmt (aim.map (.local loc')))
      (do if M.truth (← mc) then mt else mf) := by
  intro s hs hbelow
  rw [ite_stmt_eq]
  refine (hc s hs).bind fun c s₁ ⟨hle₁, hreal, _, _⟩ => ?_
  refine (gives_scope_acts loc' aim ht (Nat.le_trans hs hle₁) (below_trans hbelow hle₁)).bind
    fun b₁ s₂ ⟨hle₂, hact₁⟩ => ?_
  refine (gives_scopeIfAny hf (by omega) (below_trans hbelow (by omega))).bind
    fun b₂ s₃ ⟨hle₃, hact₂⟩ => gives_pure ⟨by omega, fun I K hcarries σ τ hm => ?_⟩
  refine hreal.performs (hcarries.slice .refl (by omega) id) hm rfl fun a σ₂ τ₂ hm₂ => ?_
  cases htruth : M.truth a with
  | true =>
    exact hact₁ I K (hcarries.slice hle₁ hle₃ fun hy => (Bool.and_eq_true_iff.1 hy).1) σ₂ τ₂ hm₂
  | false =>
    exact hact₂ I K (hcarries.slice (by omega) .refl fun hy =>
      (Bool.and_eq_true_iff.1 hy).2) σ₂ τ₂ hm₂

theorem Simulates.ite (hc : Takes S cond.source.designates cond.value mc)
    (ht : SimulatesPart S onTrue mt) (hf : SimulatesPart S onFalse mf) :
    Simulates S (.ite loc type cond onTrue onFalse) (do if M.truth (← mc) then mt else mf) := by
  have hruns (l : Loc) (aim : Option Var) : Runs S S.scope _ aim
      ((Lowering.ite loc type cond onTrue onFalse).stmt (aim.map (.local l))) _ :=
    runs_ite hc ht hf
  exact .ofBlockLike rfl id rfl hruns

end Branches

theorem yieldsNull_loop {x : Exec M Bool} (rounds : Nat) : YieldsNull (loop x rounds) false := by
  induction rounds with
  | zero => exact nofun
  | succ n ih =>
    refine yieldsNull_bind fun again => ?_
    cases again with
    | true => exact ih
    | false => exact yieldsNull_pure

/-- The local of the loop is set before each round. -/
theorem Simulates.forIn {v : Var} {iterator : Lowering} (hv : S.written v.id = true)
    (hlow : (S.scope.bind v.id).Low) (hi : Takes S iterator.source.designates iterator.value m)
    (hb : SimulatesPart (S.within (S.scope.bind v.id) hlow) body m') :
    Simulates S (.forIn loc v iterator body) (do
        let it ← m
        loop (advance v.id it m') S.rounds) := by
  refine .ofNull rfl (yieldsNull_bind fun _ => yieldsNull_loop _) fun s hs _ => ?_
  refine (hi s hs).bind fun h s₁ ⟨hle₁, hr, _, _⟩ => ?_
  refine (gives_scope_runs hb (Nat.le_trans hs hle₁)).bind
    fun b s₂ ⟨hle₂, hrun⟩ => gives_pure ⟨Nat.le_trans hle₁ hle₂, fun I K hc σ τ hm => ?_⟩
  have hbody : Rests K (S.Keeps (Range s₁.next s₂.next)) := hc.slice_rests hle₁ .refl
  refine hr.performs (hc.slice .refl hle₂ id) hm rfl fun it σ₂ τ₂ hm₂ => ?_
  have hloop := agree_loop (x := advance v.id it m')
    (y := advance v.id it (evalPart M S.rounds (some b))) (fun σ τ hm => ?_) S.rounds σ₂ τ₂ hm₂
  · exact hc.reached_of_same hloop
  · exact (agree_advance hm hbody (Setting.not_keeps hv) (hrun K hc.before_admits hbody)).round

def SimulatesHandlers (S : Setting M) (catches : List (Handler Lowering)) : Prop :=
  ∀ h ∈ catches, S.written h.var.id = true ∧ ∃ hlow : (S.scope.bind h.var.id).Low,
    SimulatesPart (S.within (S.scope.bind h.var.id) hlow) h.body
      (evalPart M S.rounds (h.body.map source))

def handlerSources (catches : List (Handler Lowering)) : List (Handler Expr) :=
  catches.map fun h => ⟨h.var, h.body.map source⟩

def Rescues (S : Setting M) (yields : Bool) (aim : Option Var) (R : UInt32 → Prop)
    (handlers sources : List (Handler Expr)) : Prop :=
  ∀ I K, Carries S yields aim R I K → ∀ thrown σ τ, Match S.scope K σ τ →
    Agree (rescue thrown (evalHandlers M S.rounds sources) σ)
      (rescue thrown (evalHandlers M S.rounds handlers)) τ
      (fun a _ => Reached S.scope I aim a ()) (Match S.scope K)

theorem gives_handlers (h : SimulatesHandlers S catches) (hs : S.first ≤ s.next)
    (hbelow : ∀ v ∈ aim, v.id.toNat < s.next) :
    Gives (handlers (aim.map (.local loc)) catches) s fun handlers s' =>
      s.next ≤ s'.next ∧ Rescues S (yieldsHandlers (handlerSources catches)) aim
        (Range s.next s'.next) handlers (handlerSources catches) := by
  induction catches generalizing s with
  | nil =>
    refine gives_pure ⟨.refl, fun I K hc thrown σ τ hm => ?_⟩
    exact agree_jump hm
  | cons first rest ih =>
    obtain ⟨⟨hv, hlow, hpart⟩, hrest⟩ := List.forall_mem_cons.1 h
    refine (gives_scope_acts loc aim hpart hs hbelow).bind fun b s₁ ⟨hle₁, hact⟩ => ?_
    refine (ih hrest (Nat.le_trans hs hle₁) (below_trans hbelow hle₁)).bind
      fun handlers s₂ ⟨hle₂, hrescue⟩ =>
      gives_pure ⟨Nat.le_trans hle₁ hle₂, fun I K hc thrown σ τ hm => ?_⟩
    have hyields (hy : yieldsHandlers (handlerSources (first :: rest)) = true) :
        yieldsPart (first.body.map source) = true ∧
          yieldsHandlers (handlerSources rest) = true := Bool.and_eq_true_iff.1 hy
    have hc₁ : Carries S _ aim (Range s.next s₁.next) I K :=
      hc.slice .refl hle₂ fun hy => (hyields hy).1
    have hc₂ : Carries S _ aim (Range s₁.next s₂.next) I K :=
      hc.slice hle₁ .refl fun hy => (hyields hy).2
    simp only [handlerSources, List.map_cons, evalHandlers, rescue]
    -- Type and value choose the handler, so both sides choose the same one.
    by_cases hcatch : M.catches first.var.type thrown = true
    · rw [if_pos hcatch, if_pos hcatch]
      have hset := hm.set (v := thrown) hc.before_rests (Setting.not_keeps hv)
      have hrun := hact I K hc₁.within _ _ hset
      exact (Agree.mono hrun fun _ _ _ _ hr => hr.scope_mono fun _ => Scope.le_bind).exit_mono
        fun _ _ hj => hj.scope_mono fun _ => Scope.le_bind
    · rw [if_neg hcatch, if_neg hcatch]
      exact hrescue I K hc₂ thrown σ τ hm

/-- What the body stored before it threw does not count. -/
theorem Simulates.tryCatch (hb : SimulatesPart S body m) (hh : SimulatesHandlers S catches) :
    Simulates S (.tryCatch loc type body catches)
      (handle m fun v => rescue v (evalHandlers M S.rounds (handlerSources catches))) := by
  refine .ofBlockLike rfl id rfl fun loc' aim s hs hbelow => ?_
  refine (gives_scope_acts loc' aim hb hs hbelow).bind fun b s₁ ⟨hle₁, hact⟩ => ?_
  refine (gives_handlers hh (Nat.le_trans hs hle₁) (below_trans hbelow hle₁)).bind
    fun handlers s₂ ⟨hle₂, hrescue⟩ =>
    gives_pure ⟨Nat.le_trans hle₁ hle₂, fun I K hc σ τ hm => steps_single ?_⟩
  have hyields (hy : (yieldsPart (body.map source) &&
      yieldsHandlers (handlerSources catches)) = true) := Bool.and_eq_true_iff.1 hy
  have hc₁ : Carries S _ aim (Range s.next s₁.next) I K :=
    hc.slice .refl hle₂ fun hy => (hyields hy).1
  have hc₂ : Carries S _ aim (Range s₁.next s₂.next) I K :=
    hc.slice hle₁ .refl fun hy => (hyields hy).2
  exact (hact I K hc₁ σ τ hm).handle (fun _ _ => id) fun v σ' τ' hm' => hrescue I K hc₂ v σ' τ' hm'

end LuaBackend.Normalize.Meaning
