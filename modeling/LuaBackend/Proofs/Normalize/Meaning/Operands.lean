import LuaBackend.Proofs.Normalize.Meaning.Fit
import LuaBackend.Proofs.Normalize.Prediction

/-!
# Operands that keep their meaning

`Realizes` says that statements, and a value after them, do what a
computation of the source does. They use up temporaries of a range of
numbers and write no locals of the program but those allowed; what is
known of other locals stays true. So values that were taken earlier, and
are stable or in temporaries, are not disturbed by later statements.
-/

namespace LuaBackend.Normalize.Meaning

open Simulation List Exec

variable {M : Machine}
variable {vs stmts vals : List Expr} {s : TempSupply} {e : Expr} {v t : Var} {type : Ty}
variable {rounds n start : Nat} {T R T' : UInt32 → Prop} {Q : Unit → State M → Prop} {h : Hoisted}
variable {m : Exec M M.Value} {a : M.Value} {ms : List (Exec M M.Value)} {loc : Loc}
variable {as : List M.Value} {l : UInt32 → M.Value} {α : Type} {pre ws : List Expr}

/-- What surrounds a tree: the rounds its loops are granted, the locals in
scope, and those it may write. Temporaries are handed out from `first` on;
something may be given about those before. -/
structure Setting (M : Machine) where
  rounds : Nat
  scope : Scope
  written : Scope
  scope_low : scope.Low
  written_low : written.Low
  first : Nat
  first_le : tempBase.toNat ≤ first
  given : Known M
  given_rests : Rests given fun y => tempBase.toNat ≤ y.toNat ∧ y.toNat < first

namespace Setting

variable {I : Known M}

/-- What code leaves alone that uses up the temporaries in `R`. -/
def Keeps (S : Setting M) (R : UInt32 → Prop) (y : UInt32) : Prop := ¬ R y ∧ S.written y = false

variable {S : Setting M} {R R' : UInt32 → Prop} {y : UInt32}

theorem Keeps.mono (h : S.Keeps R y) (hr : ∀ y, R' y → R y) : S.Keeps R' y :=
  ⟨fun hy => h.1 (hr y hy), h.2⟩

theorem keeps_temp (hy : tempBase.toNat ≤ y.toNat) (hr : ¬ R y) : S.Keeps R y := by
  refine ⟨hr, ?_⟩
  cases hw : S.written y with
  | false => rfl
  | true => exact absurd (S.written_low y hw) (Nat.not_lt.2 hy)

def Admits (S : Setting M) (I : Known M) : Prop := ∀ l, I l → S.given l

theorem Admits.and (h : S.Admits I) (I' : Known M) :
    S.Admits fun l => I l ∧ I' l := fun l hl => h l hl.1

theorem Admits.self {σ τ : State M} (h : S.Admits I) (hm : Match S.scope I σ τ) :
    S.Admits (· = τ.locals) := by
  rintro l rfl
  exact h _ hm.known

/-- Code that uses later temporaries does not touch what is given. -/
theorem given_keeps (hr : ∀ y, R y → S.first ≤ y.toNat) : Rests S.given (S.Keeps R) := by
  refine S.given_rests.mono fun y hy => keeps_temp hy.1 fun hR => ?_
  have := hr y hR
  omega

theorem not_scope (hy : tempBase.toNat ≤ y.toNat) : S.scope y = false := by
  cases hs : S.scope y with
  | false => rfl
  | true => exact absurd (S.scope_low y hs) (Nat.not_lt.2 hy)

end Setting

def run (M : Machine) (rounds : Nat) : List Expr → Exec M Unit
  | [] => pure ()
  | e :: rest => do
    let _ ← eval M rounds e
    run M rounds rest

theorem run_append (es fs : List Expr) :
    run M rounds (es ++ fs) = (do run M rounds es; run M rounds fs) := by
  induction es with
  | nil => rfl
  | cons e rest ih =>
    change (do let _ ← eval M rounds e; run M rounds (rest ++ fs)) = _
    rw [ih]
    exact (bind_bind _ _ _).symm

section Statements

variable {α : Type} {r : Result M α} {τ : State M} {J : State M → State M → Prop} {rounds : Nat}
variable {loc loc' : Loc}

theorem steps_single (h : Steps r (eval M rounds e) τ (fun _ => Q ()) J) :
    Steps r (run M rounds [e]) τ Q J :=
  h.bind fun _ _ hq => steps_of_ok rfl hq

/-- A declaration sets the local to its initial value. -/
theorem steps_decl (he : Steps r (eval M rounds e) τ (fun b τ' => Q () (τ'.set v.id b)) J) :
    Steps r (run M rounds [.varDecl loc v (some e)]) τ Q J :=
  steps_single (he.bind fun _ _ hq => steps_of_ok rfl hq)

/-- A declaration that needs no steps, and what follows it. -/
theorem steps_declared {init : Option Expr}
    (hd : eval M rounds (.varDecl loc v init) τ = some (.ok M.null, τ.set v.id a))
    (h : Steps r (run M rounds stmts) (τ.set v.id a) Q J) :
    Steps r (run M rounds (.varDecl loc v init :: stmts)) τ Q J := by
  refine Steps.bind (Q := fun _ τ₁ => τ₁ = τ.set v.id a) (steps_of_ok hd rfl) ?_
  rintro _ _ rfl
  exact h

theorem steps_assign (he : Steps r (eval M rounds e) τ (fun b τ' => Q () (τ'.set v.id b)) J) :
    Steps r (run M rounds [.binary loc type .assign (.local loc' v) e]) τ Q J :=
  steps_single (he.bind fun _ _ hq => steps_of_ok rfl hq)

/-- A compound assignment reads the local before the right side. -/
theorem steps_compound {op : BinaryOp} {old : M.Value} (hv : τ.locals v.id = old)
    (he : Steps r (eval M rounds e) τ (fun b τ' => Q () (τ'.set v.id (M.binary op old b))) J) :
    Steps r (run M rounds [.binary loc type (.compound op) (.local loc' v) e]) τ Q J := by
  subst hv
  exact steps_single (he.bind fun _ _ hq => steps_of_ok rfl hq)

theorem evalSeq_discard (last : M.Value) (es : List Expr) :
    (do let _ ← evalSeq M rounds last es) = run M rounds es := by
  induction es generalizing last with
  | nil => rfl
  | cons e rest ih =>
    rw [evalSeq, bind_bind, run]
    exact congrArg (eval M rounds e >>= ·) (funext ih)

theorem steps_statements {Q : State M → Prop} (h : Steps r (run M rounds stmts) τ (fun _ => Q) J) :
    Steps r (eval M rounds (.statements loc stmts)) τ (fun _ => Q) J := by
  refine steps_discard ?_
  rw [Expr.statements, eval, evalSeq_discard]
  exact h

theorem steps_scope {Q : State M → Prop} (h : Steps r (run M rounds stmts) τ (fun _ => Q) J) :
    Steps r (evalPart M rounds (some (.statements loc stmts))) τ (fun _ => Q) J := by
  rw [evalPart]
  exact steps_statements h

/-- A condition and then one of the parts. -/
theorem steps_ite {cond : Expr} {onTrue onFalse : Option Expr}
    (hc : Steps r (eval M rounds cond) τ (fun b τ' =>
      Steps r (evalPart M rounds (if M.truth b then onTrue else onFalse)) τ' (fun _ => Q ()) J) J) :
    Steps r (run M rounds [.ite loc type cond onTrue onFalse]) τ Q J := by
  refine steps_single (hc.bind fun b τ' h => ?_)
  cases ht : M.truth b with
  | true =>
    rw [ht] at h
    exact h
  | false =>
    rw [ht] at h
    exact h

end Statements

/-- While the locals in `T` are as given, the expression has the value and
does nothing else. -/
def Holds (rounds : Nat) (T : UInt32 → Prop) (v : Expr) (a : M.Value) (l : UInt32 → M.Value) :
    Prop :=
  ∀ τ : State M, (∀ y, T y → τ.locals y = l y) → eval M rounds v τ = some (.ok a, τ)

/-- Its value depends on the locals in `T` only. -/
def Fixed (M : Machine) (rounds : Nat) (T : UInt32 → Prop) (v : Expr) : Prop :=
  ∀ l : UInt32 → M.Value, ∃ a, Holds rounds T v a l

/-- The locals with numbers from `lo` up to `hi`. -/
def Range (lo hi : Nat) (y : UInt32) : Prop := lo ≤ y.toNat ∧ y.toNat < hi

section Ranges

variable {lo lo' hi hi' : Nat} {y : UInt32}

theorem Range.mono (h : Range lo hi y) (hlo : lo' ≤ lo) (hhi : hi ≤ hi') : Range lo' hi' y :=
  ⟨Nat.le_trans hlo h.1, Nat.lt_of_lt_of_le h.2 hhi⟩

theorem Range.of_or_next (h : Range lo hi y ∨ y = t.id) (ht : t.id.toNat = hi) (hlo : lo ≤ hi)
    (hhi : hi < hi') : Range lo hi' y := by
  obtain h | rfl := h
  · exact h.mono .refl (Nat.le_of_lt hhi)
  · exact ⟨ht ▸ hlo, ht ▸ hhi⟩

theorem rests_range {S : Setting M} {I : Known M} (h : Rests I (S.Keeps (Range lo' hi')))
    (hlo : lo' ≤ lo) (hhi : hi ≤ hi') : Rests I (S.Keeps (Range lo hi)) :=
  h.mono fun _ hy => hy.mono fun _ hr => hr.mono hlo hhi

end Ranges

/-- Whether it holds depends on the locals in `T`. -/
theorem rests_holds {v : Expr} : Rests (Holds rounds T v a) T := fun _ _ hfg h τ hτ =>
  h τ fun y hy => (hτ y hy).trans (hfg y hy).symm

theorem Holds.mono {v : Expr} (h : Holds rounds T v a l) (ht : ∀ y, T y → T' y) :
    Holds rounds T' v a l := fun τ hτ => h τ fun y hy => hτ y (ht y hy)

theorem Holds.eval {v : Expr} {τ : State M} (h : Holds rounds T v a τ.locals) :
    LuaBackend.eval M rounds v τ = some (.ok a, τ) :=
  h τ fun _ _ => rfl

/-! ## Realizations -/

def Reads {α : Type} (S : Setting M) (r : Result M α) (y : Exec M α) (τ : State M) : Prop :=
  Agree r y τ (Same S.scope (· = τ.locals)) (Match S.scope (· = τ.locals))

/-- The statements use up temporaries in `R`; the value writes no locals at
all. -/
def Realizes (S : Setting M) (R : UInt32 → Prop) (h : Hoisted) (m : Exec M M.Value) : Prop :=
  ∀ I, S.Admits I → Rests I (S.Keeps R) → ∀ σ τ, Match S.scope I σ τ →
    Steps (m σ) (run M S.rounds h.stmts) τ
      (fun _ τ' => I τ'.locals ∧ Reads S (m σ) (eval M S.rounds h.value) τ') (Match S.scope I)

/-- Taking a value realizes a computation. A stable value depends on
temporaries only. -/
def Takes (S : Setting M) (designates : Bool) (x : Norm Hoisted) (m : Exec M M.Value) : Prop :=
  ∀ s, S.first ≤ s.next → Gives x s fun h s' => s.next ≤ s'.next ∧
    Realizes S (Range s.next s'.next) h m ∧
    (h.value.isStable = true → Fixed M S.rounds (Range tempBase.toNat s'.next) h.value) ∧
    (h.value.designates = true → designates = true)

section Reading

variable {S : Setting M} {α β : Type} {σ τ : State M} {I : Known M}
variable {y : Exec M α} {r : Result M α}

/-- What reads keeps every invariant. -/
theorem Reads.agree (h : Reads S r y τ) (hi : I τ.locals) :
    Agree r y τ (Same S.scope I) (Match S.scope I) := by
  have hmatch (σ' τ' : State M) (hm : Match S.scope (· = τ.locals) σ' τ') :
      Match S.scope I σ' τ' := hm.known_mono (hm.known ▸ hi)
  refine (Agree.mono h ?_).exit_mono hmatch
  rintro a b σ' τ' ⟨rfl, hm⟩
  exact ⟨rfl, hmatch σ' τ' hm⟩

/-- One reading computation after another. -/
theorem Reads.bind {x : Exec M α} {f g : α → Exec M β} (h : Reads S (x σ) y τ)
    (hf : ∀ a σ' τ', Match S.scope (· = τ.locals) σ' τ' → Reads S (f a σ') (g a) τ') :
    Reads S ((x >>= f) σ) (y >>= g) τ := by
  refine Agree.bind (Q := fun r => Ends r (Same S.scope (· = τ.locals))) h ?_
  rintro a b σ' τ' ⟨rfl, hm⟩
  exact (hf a σ' τ' hm).agree hm.known

theorem reads_of_ok {a : α} (hr : r = some (.ok a, σ)) (hy : y τ = some (.ok a, τ))
    (h : Match S.scope I σ τ) : Reads S r y τ :=
  steps_of_ok hy ⟨a, σ, hr, rfl, h.self⟩

theorem Reads.bind_target {r : Result M β} {g : α → Exec M β} {a : α} (hy : y τ = some (.ok a, τ))
    (h : Reads S r (g a) τ) : Reads S r (y >>= g) τ := by
  refine Steps.bind (Q := fun b τ' => b = a ∧ τ' = τ) (steps_of_ok hy ⟨rfl, rfl⟩) ?_
  rintro b τ' ⟨rfl, rfl⟩
  exact h

theorem reads_pure {a : α} (h : Match S.scope I σ τ) :
    Reads S ((pure a : Exec M α) σ) (pure a) τ := agree_pure ⟨rfl, h.self⟩

theorem reads_read (f : M.World → M.Value) (h : Match S.scope I σ τ) :
    Reads S (read f σ) (read f) τ := agree_read f h.self

theorem reads_perform (event : Event M.Value) (h : Match S.scope I σ τ) :
    Reads S (perform event σ) (perform event) τ := agree_perform event h.self

end Reading

section Moving

variable {S : Setting M} {R R' : UInt32 → Prop} {h : Hoisted} {m : Exec M M.Value} {α : Type}
variable {r : Result M α} {τ : State M} {J : State M → State M → Prop}

theorem Realizes.mono (hr : Realizes S R h m) (hR : ∀ y, R y → R' y) : Realizes S R' h m :=
  fun I hg hI => hr I hg (hI.mono fun _ hy => hy.mono hR)

theorem Fixed.mono {v : Expr} (h : Fixed M rounds T v) (ht : ∀ y, T y → T' y) :
    Fixed M rounds T' v := fun l =>
  let ⟨a, ha⟩ := h l
  ⟨a, ha.mono ht⟩

theorem eval_local (h : τ.locals t.id = a) : eval M rounds (.local loc t) τ = some (.ok a, τ) :=
  congrArg (fun v => some (Except.ok v, τ)) h

theorem fixed_temp (ht : T t.id) :
    Fixed M rounds T (.local loc t) := fun l => ⟨l t.id, fun _ hτ => eval_local (hτ t.id ht)⟩

/-- The value is declared as a temporary. -/
theorem Realizes.declares {σ : State M} {I : Known M} (hr : Realizes S R h m)
    (ht : tempBase.toNat ≤ t.id.toNat) (hg : S.Admits I)
    (hI : Rests I (S.Keeps fun y => R y ∨ y = t.id)) (hm : Match S.scope I σ τ) :
    Agree (m σ) (run M S.rounds (h.stmts ++ [.varDecl loc t (some h.value)])) τ
      (fun a _ σ' τ' => τ'.locals t.id = a ∧ Match S.scope I σ' τ') (Match S.scope I) := by
  have hI' : Rests I (S.Keeps R) := hI.mono fun y hy => hy.mono fun _ => .inl
  rw [run_append]
  refine (hr I hg hI' σ τ hm).bind fun _ τ₁ h₁ => steps_decl (Steps.mono (h₁.2.agree h₁.1) ?_)
  rintro b τ₂ ⟨a, σ', hσ, rfl, hm'⟩
  exact ⟨a, σ', hσ, State.locals_set_self _ _ _,
    hm'.set_target hI (Setting.not_scope ht) fun hk => hk.1 (.inr rfl)⟩

/-- A value that is moved into a temporary stays realized. -/
theorem Realizes.moved (hr : Realizes S R h m) (ht : tempBase.toNat ≤ t.id.toNat) :
    Realizes S (fun y => R y ∨ y = t.id)
      ⟨h.stmts ++ [.varDecl loc t (some h.value)], .local loc t⟩ m := by
  intro I hg hI σ τ hm
  refine Steps.mono (hr.declares ht hg hI hm) ?_
  rintro _ τ' ⟨a, σ', hσ, ha, hm'⟩
  exact ⟨hm'.known, reads_of_ok hσ (eval_local ha) hm'⟩

theorem gives_freshTemp_next :
    Gives (freshTemp type) s fun t s' => t.id.toNat = s.next ∧ s'.next = s.next + 1 :=
  gives_freshTemp fun hlt => ⟨UInt32.toNat_ofNat_of_lt' hlt, rfl⟩

/-- Moved or not, the value stays realized. -/
theorem gives_spill_realizes {lo : Nat} {needed : Bool} (hs : Reserved s) (hlo : lo ≤ s.next)
    (hr : Realizes S (Range lo s.next) h m)
    (hv : h.value.isStable = true → Fixed M S.rounds (Range tempBase.toNat s.next) h.value) :
    Gives (spill needed h.value) s fun k s' => s.next ≤ s'.next ∧
      Realizes S (Range lo s'.next) ⟨h.stmts ++ k.stmts, k.value⟩ m ∧
      (k.value.isStable = true → Fixed M S.rounds (Range tempBase.toNat s'.next) k.value) := by
  refine gives_spill (fun hn hlt => ?_) fun hn => ?_
  · have hid : (nextTemp s h.value.type).id.toNat = s.next := UInt32.toNat_ofNat_of_lt' hlt
    exact ⟨Nat.le_succ _,
      (hr.moved (hid ▸ hs)).mono fun y hy => .of_or_next hy hid hlo (Nat.lt_succ_self _),
      fun _ => fixed_temp ⟨hid ▸ hs, hid ▸ Nat.lt_succ_self _⟩⟩
  · refine ⟨.refl, ?_, hv⟩
    rw [append_nil]
    exact hr

end Moving

/-! ## Several values -/

section Lists

variable {S : Setting M} {R R' T T' : UInt32 → Prop} {σ τ : State M} {I : Known M}

theorem collect_append (xs ys : List (Exec M α)) : collect (xs ++ ys) =
    (do let as ← collect xs; let bs ← collect ys; return as ++ bs) := by
  induction xs with
  | nil => exact (bind_pure_self _).symm
  | cons x rest ih =>
    simp only [cons_append, collect, ih, bind_assoc, pure_bind]

theorem collect_concat (xs : List (Exec M α)) (x : Exec M α) : collect (xs ++ [x]) =
    (do let as ← collect xs; let a ← x; return as ++ [a]) := by
  simp only [collect_append, collect, bind_assoc, pure_bind]

theorem evalList_append (es fs : List Expr) : evalList M rounds (es ++ fs) =
    (do let as ← evalList M rounds es; let bs ← evalList M rounds fs; return as ++ bs) := by
  induction es with
  | nil => exact (bind_pure_self _).symm
  | cons e rest ih =>
    simp only [cons_append, evalList, ih, bind_assoc, pure_bind]

/-- Each expression has its value while the locals in `T` are as given. -/
def AllHold (rounds : Nat) (T : UInt32 → Prop) (vs : List Expr) (as : List M.Value)
    (l : UInt32 → M.Value) : Prop := List.Forall₂ (fun v a => Holds rounds T v a l) vs as

theorem AllHold.mono (h : AllHold rounds T vs as l) (ht : ∀ y, T y → T' y) :
    AllHold rounds T' vs as l :=
  List.Forall₂.imp (fun _ _ hv => hv.mono ht) h

theorem rests_allHold : Rests (AllHold rounds T vs as) T :=
  fun f g hfg h => List.Forall₂.imp (fun _ _ hv => rests_holds f g hfg hv) h

theorem AllHold.evalList (h : AllHold rounds T vs as τ.locals) :
    LuaBackend.evalList M rounds vs τ = some (.ok as, τ) := by
  induction h with
  | nil => rfl
  | cons hv _ ih =>
    rw [LuaBackend.evalList, bind_of_ok hv.eval, bind_of_ok ih]
    rfl

/-- After the statements the computations are done, and their values hold
while the locals in `T` stay. -/
def Collects (S : Setting M) (R T : UInt32 → Prop) (pre vals : List Expr)
    (ms : List (Exec M M.Value)) : Prop :=
  ∀ I, S.Admits I → Rests I (S.Keeps R) → ∀ σ τ, Match S.scope I σ τ →
    Agree (collect ms σ) (run M S.rounds pre) τ
      (fun as _ => Match S.scope fun l => I l ∧ AllHold S.rounds T vals as l) (Match S.scope I)

def RealizesAll (S : Setting M) (R : UInt32 → Prop) (stmts vals : List Expr)
    (ms : List (Exec M M.Value)) : Prop :=
  ∀ I, S.Admits I → Rests I (S.Keeps R) → ∀ σ τ, Match S.scope I σ τ →
    Steps (collect ms σ) (run M S.rounds stmts) τ
      (fun _ τ' => I τ'.locals ∧ Reads S (collect ms σ) (evalList M S.rounds vals) τ')
      (Match S.scope I)

theorem Collects.mono (h : Collects S R T pre vals ms) (hR : ∀ y, R y → R' y) (hT : ∀ y, T y → T' y) :
    Collects S R' T' pre vals ms := by
  intro I hg hI σ τ hm
  refine (h I hg (hI.mono fun _ hy => hy.mono hR) σ τ hm).mono fun as _ σ' τ' hm' => ?_
  exact hm'.known_mono ⟨hm'.known.1, hm'.known.2.mono hT⟩

/-- One more computation is done, and its value holds from then on. -/
theorem Collects.push {R₁ : UInt32 → Prop} (hf : Collects S R T pre vals ms) (hr : Realizes S R₁ h m)
    (hR : ∀ y, R₁ y → R y) (hT : ∀ y, T y → S.Keeps R₁ y) (hv : Fixed M S.rounds T' h.value)
    (hT' : ∀ y, T y → T' y) :
    Collects S R T' (pre ++ h.stmts) (vals ++ [h.value]) (ms ++ [m]) := by
  intro I hg hI σ τ hm
  rw [run_append, collect_concat]
  refine (hf I hg hI σ τ hm).bind (Q := fun r => Ends r _) ?_
  rintro as _ σ₁ τ₁ hm₁
  have hI₁ : Rests (fun l => I l ∧ AllHold S.rounds T vals as l) (S.Keeps R₁) :=
    (hI.mono fun _ hy => hy.mono hR).and (rests_allHold.mono hT)
  have hrun := (hr _ (hg.and _) hI₁ σ₁ τ₁ hm₁).exit_mono fun _ _ hj => hj.known_mono hj.known.1
  refine hrun.source_bind.mono ?_
  rintro _ τ₂ ⟨⟨hI₂, hall⟩, hreads⟩
  obtain ⟨a, ha⟩ := hv τ₂.locals
  obtain ⟨_, σ', hσ, rfl, hm₂⟩ := Steps.of_ok hreads ha.eval
  exact ⟨as ++ [_], σ', bind_of_ok hσ, hm₂.known_mono ⟨hI₂, rel_append (hall.mono hT') (.cons ha
    .nil)⟩⟩

def Quiet (S : Setting M) (v : Expr) (m : Exec M M.Value) : Prop :=
  ∀ I, S.Admits I → ∀ σ τ, Match S.scope I σ τ → Reads S (m σ) (eval M S.rounds v) τ

/-- A realized value without statements. -/
theorem Realizes.quiet (hr : Realizes S R h m) (hR : ∀ y, R y → S.first ≤ y.toNat)
    (hs : h.stmts = []) : Quiet S h.value m := by
  intro I hg σ τ hm
  have hm' : Match S.scope S.given σ τ := hm.known_mono (hg _ hm.known)
  have hrun := hr _ (fun _ => id) (Setting.given_keeps hR) σ τ hm'
  rw [hs] at hrun
  exact (hrun.of_ok rfl).2

theorem Quiet.realizes (hq : Quiet S h.value m) (hs : h.stmts = []) : Realizes S R h m := by
  intro I hg _ σ τ hm
  rw [hs]
  exact steps_of_ok rfl ⟨hm.known, hq I hg σ τ hm⟩

theorem forall₂_quiet {hs : List Hoisted} (h : List.Forall₂ (Realizes S R) hs ms)
    (hR : ∀ y, R y → S.first ≤ y.toNat) (hstmts : ∀ k ∈ hs, k.stmts = []) :
    List.Forall₂ (Quiet S) (hs.map Hoisted.value) ms := by
  induction h with
  | nil => exact .nil
  | cons hk _ ih =>
    rw [forall_mem_cons] at hstmts
    exact .cons (hk.quiet hR hstmts.1) (ih hstmts.2)

theorem reads_evalList (h : List.Forall₂ (Quiet S) vs ms) (hg : S.Admits I)
    (hm : Match S.scope I σ τ) :
    Reads S (collect ms σ) (evalList M S.rounds vs) τ := by
  induction h generalizing I σ τ with
  | nil => exact reads_pure hm
  | cons hv _ ih =>
    refine (hv I hg σ τ hm).bind fun a σ₁ τ₁ hm₁ => ?_
    exact (ih (hg.self hm) hm₁).bind fun as σ₂ τ₂ hm₂ => reads_pure hm₂

end Lists

/-! ## Operands -/

section Operands

variable {S : Setting M} {lo next : Nat} {pre done : List Expr} {ms : List (Exec M M.Value)}

/-- Some values are settled; those after them are still to be evaluated, and
only the first of these has statements. -/
inductive Taken (S : Setting M) (lo next : Nat) (pre done : List Expr)
    (ms : List (Exec M M.Value)) : Prop
  | intro (T R : UInt32 → Prop) (before vals : List Expr) (hs : List Hoisted)
      (settled pending : List (Exec M M.Value))
      (pre_eq : pre = before ++ hs.flatMap Hoisted.stmts)
      (done_eq : done = vals ++ hs.map Hoisted.value) (ms_eq : ms = settled ++ pending)
      (settles : Collects S (Range lo next) T before vals settled)
      (low : ∀ y, T y → Range tempBase.toNat next y) (apart : ∀ y, T y → ¬ R y)
      (within : ∀ y, R y → Range lo next y) (stable : ∀ v ∈ vals, v.isStable = true)
      (realizes : List.Forall₂ (Realizes S R) hs pending) (quiet : ∀ h ∈ hs.tail, h.stmts = [])
      (fixed : ∀ h ∈ hs, h.value.isStable = true →
        Fixed M S.rounds (Range tempBase.toNat next) h.value)

/-- A value without statements is still to be evaluated. -/
theorem Taken.add {next' : Nat} (ht : Taken S lo next pre done ms) (hn : next ≤ next')
    (hr : Realizes S R h m) (hR : ∀ y, R y → S.first ≤ y.toNat) (hs : h.stmts = [])
    (hv : h.value.isStable = true → Fixed M S.rounds (Range tempBase.toNat next') h.value) :
    Taken S lo next' pre (done ++ [h.value]) (ms ++ [m]) := by
  have hrange (k : Nat) (y : UInt32) (hy : Range k next y) : Range k next' y :=
    hy.mono .refl hn
  obtain ⟨T, R', before, vals, hs', settled, pending, rfl, rfl, rfl, hcollects, hlow, hapart,
    hwithin, hstable, hrealizes, hquiet, hfixed⟩ := ht
  refine .intro T R' before vals (hs' ++ [h]) settled (pending ++ [m]) ?_ ?_ ?_
    (hcollects.mono (hrange lo) fun _ => id) (fun y hy => hrange _ y (hlow y hy)) hapart
    (fun y hy => hrange lo y (hwithin y hy)) hstable ?_ (fun k hk => ?_) fun k hk hks => ?_
  · simp [hs]
  · simp
  · simp
  · exact rel_append hrealizes (.cons ((hr.quiet hR hs).realizes hs) .nil)
  · cases hs' with
    | nil => cases hk
    | cons =>
      obtain hk | hk := mem_append.1 hk
      · exact hquiet k hk
      · rw [mem_singleton.1 hk, hs]
  · obtain hk | hk := mem_append.1 hk
    · exact (hfixed k hk hks).mono (hrange _)
    · rw [mem_singleton.1 hk] at hks ⊢
      exact hv hks

/-- A value with statements follows settled values. -/
theorem Collects.taken (hf : Collects S (Range lo next) T pre done ms) (hr : Realizes S R h m)
    (hlow : ∀ y, T y → Range tempBase.toNat next y) (hapart : ∀ y, T y → ¬ R y)
    (hwithin : ∀ y, R y → Range lo next y) (hstable : ∀ v ∈ done, v.isStable = true)
    (hv : h.value.isStable = true → Fixed M S.rounds (Range tempBase.toNat next) h.value) :
    Taken S lo next (pre ++ h.stmts) (done ++ [h.value]) (ms ++ [m]) :=
  .intro T R pre done [h] ms [m] (by simp) rfl rfl hf hlow hapart hwithin hstable
    (.cons hr .nil) nofun
    (fun k hk => by rw [mem_singleton.1 hk]; exact hv)

/-- What is still to be evaluated does what the computations do. -/
theorem Taken.realizesAll (ht : Taken S lo next pre done ms) (hlo : S.first ≤ lo) :
    RealizesAll S (Range lo next) pre done ms := by
  obtain ⟨T, R, before, vals, hs, settled, pending, rfl, rfl, rfl, hcollects, hlow, hapart,
    hwithin, -, hrealizes, hquiet, -⟩ := ht
  intro I hg hI σ τ hm
  have hfirst (y : UInt32) (hy : R y) : S.first ≤ y.toNat := Nat.le_trans hlo (hwithin y hy).1
  -- Only the first value that is still pending has statements; they keep the settled ones.
  cases hrealizes with
  | nil =>
    simp only [flatMap_nil, map_nil, append_nil]
    refine Steps.mono (hcollects I hg hI σ τ hm) ?_
    rintro _ τ' ⟨as, σ', hσ, hm'⟩
    exact ⟨hm'.known.1, reads_of_ok hσ hm'.known.2.evalList hm'⟩
  | @cons h m rest ms' hr hrest =>
    have hstmts : rest.flatMap Hoisted.stmts = [] :=
      flatMap_eq_nil_iff.2 fun k hk => hquiet k hk
    have hreads := forall₂_quiet hrest hfirst hquiet
    rw [flatMap_cons, hstmts, append_nil, run_append, collect_append]
    refine (hcollects I hg hI σ τ hm).bind
      (Q := fun r _ τ' => I τ'.locals ∧ Reads S r (evalList M S.rounds _) τ') ?_
    rintro as _ σ₁ τ₁ hm₁
    have hI₁ : Rests (fun l => I l ∧ AllHold S.rounds T vals as l) (S.Keeps R) :=
      (hI.mono fun _ hy => hy.mono hwithin).and
        (rests_allHold.mono fun y hy => Setting.keeps_temp (hlow y hy).1 (hapart y hy))
    have hrun := (hr _ (hg.and _) hI₁ σ₁ τ₁ hm₁).exit_mono fun _ _ hj => hj.known_mono hj.known.1
    refine hrun.source_bind.source_bind.mono ?_
    rintro _ τ₂ ⟨⟨hI₂, hall⟩, hvalue⟩
    refine ⟨hI₂, ?_⟩
    rw [map_cons, evalList_append]
    refine Reads.bind_target hall.evalList ?_
    have hgiven : S.Admits (· = τ₂.locals) := fun l hl => hg l (hl ▸ hI₂)
    have hlist : Reads S (collect (m :: ms') σ₁)
        (evalList M S.rounds (h.value :: rest.map Hoisted.value)) τ₂ :=
      hvalue.bind fun a σ₃ τ₃ hm₃ => (reads_evalList hreads hgiven hm₃).bind fun bs σ₄ τ₄ hm₄ =>
        reads_pure hm₄
    exact hlist.bind fun bs σ₃ τ₃ hm₃ => reads_pure hm₃

/-- Temporaries below `n`, and those from `start` up to `k`. -/
def Zone (n start k : Nat) (y : UInt32) : Prop :=
  Range tempBase.toNat n y ∨ Range start k y

theorem gives_spill_collects (hs : Reserved s) (hlo : lo ≤ s.next) (hstart : start ≤ s.next)
    (hf : Collects S (Range lo s.next) T pre done ms) (hr : Realizes S R h m)
    (hR : ∀ y, R y → Range lo s.next y) (hlow : ∀ y, T y → Range tempBase.toNat s.next y)
    (hapart : ∀ y, T y → ¬ R y) (hzone : ∀ y, T y → Zone n start s.next y)
    (hv : h.value.isStable = true → Fixed M S.rounds (Range tempBase.toNat n) h.value) :
    Gives (spill (!h.value.isStable) h.value) s fun k s' => s.next ≤ s'.next ∧
      Collects S (Range lo s'.next) (Zone n start s'.next) (pre ++ h.stmts ++ k.stmts)
        (done ++ [k.value]) (ms ++ [m]) ∧ k.value.isStable = true ∧
      (k.value.designates = true → h.value.designates = true) := by
  refine gives_spill (fun hn hlt => ?_) fun hn => ?_
  · have hid : (nextTemp s h.value.type).id.toNat = s.next := UInt32.toNat_ofNat_of_lt' hlt
    refine ⟨Nat.le_succ _, ?_, isTemp_nextTemp hs hlt, nofun⟩
    rw [append_assoc]
    refine (hf.mono (fun y hy => hy.mono .refl (Nat.le_succ _)) fun _ => id).push
      (hr.moved (hid ▸ hs)) (fun y hy => ?_) (fun y hy => ?_) (fixed_temp (.inr ?_)) fun y hy => ?_
    · exact .of_or_next (hy.imp_left (hR y)) hid hlo (Nat.lt_succ_self _)
    · refine Setting.keeps_temp (hlow y hy).1 ?_
      rintro (hR' | rfl)
      · exact hapart y hy hR'
      · have hbelow := (hlow _ hy).2
        omega
    · exact ⟨hid ▸ hstart, hid ▸ Nat.lt_succ_self _⟩
    · exact (hzone y hy).imp_right fun hy => hy.mono .refl (Nat.le_succ _)
  · have hstable : h.value.isStable = true := by simpa using hn
    refine ⟨.refl, ?_, hstable, id⟩
    rw [append_nil]
    exact hf.push hr hR (fun y hy => Setting.keeps_temp (hlow y hy).1 (hapart y hy))
      ((hv hstable).mono fun _ => .inl) hzone

def Shaped (vs ws : List Expr) : Prop :=
  List.Forall₂ (fun v w => v.designates = true → w.designates = true) vs ws

theorem shaped_refl (vs : List Expr) : Shaped vs vs := forall₂_same.2 fun _ _ => id

theorem shaped_append {vs' ws' : List Expr} (h : Shaped vs ws) (h' : Shaped vs' ws') :
    Shaped (vs ++ vs') (ws ++ ws') := rel_append h h'

theorem Shaped.trans {us : List Expr} (h : Shaped us vs) (h' : Shaped vs ws) : Shaped us ws := by
  induction h generalizing ws with
  | nil => exact h'
  | cons hv _ ih =>
    cases h' with
    | cons hw hrest => exact .cons (fun hd => hw (hv hd)) (ih hrest)

theorem spillUnstable_append (h : ∀ v ∈ vals, v.isStable = true) (vs : List Expr) :
    spillUnstable (vals ++ vs) =
      (do let (stmts, values) ← spillUnstable vs; return (stmts, vals ++ values)) := by
  induction vals with
  | nil => exact (bind_pure _).symm
  | cons v rest ih =>
    rw [forall_mem_cons] at h
    simp only [cons_append, spillUnstable, spill, h.1, Bool.not_true, ih h.2, pure_bind, bind_assoc]
    rfl

/-- Values without statements are moved one by one. -/
theorem gives_spillUnstable_quiet {ms' : List (Exec M M.Value)} (hq : List.Forall₂ (Quiet S) vs ms')
    (hv : ∀ v ∈ vs, v.isStable = true → Fixed M S.rounds (Range tempBase.toNat n) v)
    (hbase : tempBase.toNat ≤ start) (hn : n ≤ start) :
    ∀ {s : TempSupply} {pre done : List Expr} {ms : List (Exec M M.Value)}, Reserved s →
      lo ≤ s.next → start ≤ s.next →
      Collects S (Range lo s.next) (Zone n start s.next) pre done ms →
      Gives (spillUnstable vs) s fun r s' => s.next ≤ s'.next ∧
        Collects S (Range lo s'.next) (Zone n start s'.next) (pre ++ r.1) (done ++ r.2)
          (ms ++ ms') ∧ (∀ v ∈ r.2, v.isStable = true) ∧ Shaped r.2 vs := by
  -- What has been moved so far is settled, with `start` as the first new temporary.
  induction hq with
  | nil =>
    intro s pre done ms _ _ _ hf
    refine gives_pure ⟨.refl, ?_, nofun, .nil⟩
    simpa using hf
  | @cons v m rest ms' hvm _ ih =>
    intro s pre done ms hs hlo hstart hf
    rw [forall_mem_cons] at hv
    have hlow : ∀ y, Zone n start s.next y → Range tempBase.toNat s.next y := by
      rintro y (hy | hy)
      · exact ⟨hy.1, by have := hy.2; omega⟩
      · exact ⟨by have := hy.1; omega, hy.2⟩
    have hr : Realizes S (fun _ => False) ⟨[], v⟩ m := Quiet.realizes hvm rfl
    refine (gives_spill_collects (n := n) hs hlo hstart hf hr (fun _ h => h.elim) hlow
      (fun _ _ h => h) (fun _ => id) hv.1).bind fun k s₁ hk => ?_
    obtain ⟨hle, hcollects, hstable, hshape⟩ := hk
    refine (ih hv.2 (Nat.le_trans hs hle) (Nat.le_trans hlo hle) (Nat.le_trans hstart hle)
      hcollects).bind fun r s₂ hr => gives_pure ?_
    obtain ⟨hle', hcollects', hstable', hshape'⟩ := hr
    refine ⟨Nat.le_trans hle hle', ?_, forall_mem_cons.2 ⟨hstable, hstable'⟩, .cons hshape hshape'⟩
    simpa using hcollects'

/-- All values taken so far are moved, except stable ones. -/
theorem Taken.gives_spillUnstable (ht : Taken S lo next pre done ms) (hs : Reserved s)
    (hfirst : S.first ≤ lo) (hlo : lo ≤ s.next) (hn : next ≤ s.next) :
    Gives (spillUnstable done) s fun r s' => s.next ≤ s'.next ∧
      Collects S (Range lo s'.next) (Zone next s.next s'.next) (pre ++ r.1) r.2 ms ∧
      (∀ v ∈ r.2, v.isStable = true) ∧ Shaped r.2 done := by
  obtain ⟨T, R, before, vals, hs', settled, pending, rfl, rfl, rfl, hcollects, hlow, hapart,
    hwithin, hstable, hrealizes, hquiet, hfixed⟩ := ht
  have hrange (k : Nat) (y : UInt32) (hy : Range k next y) : Range k s.next y :=
    hy.mono .refl hn
  rw [spillUnstable_append hstable]
  -- Settled values stay, the first pending one has its statements, and the rest is quiet.
  cases hrealizes with
  | nil =>
    refine gives_pure ⟨.refl, ?_, ?_, ?_⟩
    · simpa using hcollects.mono (hrange lo) fun y hy => .inl (hlow y hy)
    · simpa using hstable
    · simpa using shaped_refl vals
  | @cons h m rest ms' hr hrest =>
    have hstmts : rest.flatMap Hoisted.stmts = [] :=
      flatMap_eq_nil_iff.2 fun k hk => hquiet k hk
    rw [forall_mem_cons] at hfixed
    have hrest' : ∀ v ∈ rest.map Hoisted.value, v.isStable = true →
        Fixed M S.rounds (Range tempBase.toNat next) v := forall_mem_map.2 hfixed.2
    have hspill := gives_spill_collects hs hlo .refl
      (hcollects.mono (hrange lo) fun _ => id) hr (fun y hy => hrange lo y (hwithin y hy))
      (fun y hy => hrange _ y (hlow y hy)) hapart (fun y hy => .inl (hlow y hy)) hfixed.1
    have hall : Gives (spillUnstable (h.value :: rest.map Hoisted.value)) s fun r s' =>
        s.next ≤ s'.next ∧ Collects S (Range lo s'.next) (Zone next s.next s'.next)
          (before ++ h.stmts ++ r.1) (vals ++ r.2) (settled ++ m :: ms') ∧
        (∀ v ∈ r.2, v.isStable = true) ∧
        Shaped r.2 (h.value :: rest.map Hoisted.value) := by
      refine hspill.bind fun k s₁ ⟨hle, hf, hk, hshape⟩ => ?_
      refine (gives_spillUnstable_quiet (forall₂_quiet hrest
        (fun y hy => Nat.le_trans hfirst (hwithin y hy).1) hquiet) hrest' hs hn
        (Nat.le_trans hs hle) (Nat.le_trans hlo hle) hle hf).bind fun r s₂ hr => gives_pure ?_
      obtain ⟨hle', hf', hstable', hshape'⟩ := hr
      refine ⟨Nat.le_trans hle hle', ?_, forall_mem_cons.2 ⟨hk, hstable'⟩, .cons hshape hshape'⟩
      simpa using hf'
    refine hall.bind fun r s₁ ⟨hle, hf, hstable', hshape⟩ => gives_pure ⟨hle, ?_, ?_, ?_⟩
    · simpa [hstmts] using hf
    · exact forall_mem_append.2 ⟨hstable, hstable'⟩
    · exact shaped_append (shaped_refl vals) hshape

/-- A part that is wanted for its value: how it is taken, what it does, and
the part itself. -/
structure Wanted (M : Machine) where
  taken : Norm Hoisted
  meaning : Exec M M.Value
  source : Expr

section

variable {parts : List (Wanted M)}
  (hparts : ∀ p ∈ parts, Takes S p.source.designates p.taken p.meaning)
include hparts

/-- Values are taken from left to right after others. -/
theorem gives_operandsAfter :
    ∀ {s : TempSupply} {pre done sources : List Expr} {ms : List (Exec M M.Value)},
      S.first ≤ lo → lo ≤ s.next → Taken S lo s.next pre done ms → Shaped done sources →
      Gives (operandsAfter done (parts.map Wanted.taken)) s fun r s' => s.next ≤ s'.next ∧
        RealizesAll S (Range lo s'.next) (pre ++ r.1) r.2 (ms ++ parts.map Wanted.meaning) ∧
        Shaped r.2 (sources ++ parts.map Wanted.source) := by
  induction parts with
  | nil =>
    intro s pre done sources ms hfirst _ ht hshape
    refine gives_pure ⟨.refl, ?_, ?_⟩
    · simpa using ht.realizesAll hfirst
    · simpa using hshape
  | cons p rest ih =>
    intro s pre done sources ms hfirst hlo ht hshape
    rw [forall_mem_cons] at hparts
    have hs : Reserved s := Nat.le_trans S.first_le (Nat.le_trans hfirst hlo)
    refine (hparts.1 s (Nat.le_trans hfirst hlo)).bind fun h s₁ ⟨hle, hr, hstable, hd⟩ => ?_
    have hs₁ : Reserved s₁ := Nat.le_trans hs hle
    by_cases hempty : h.stmts.isEmpty = true
    · rw [if_pos hempty]
      have hadded := ht.add hle hr (fun y hy => Nat.le_trans (Nat.le_trans hfirst hlo) hy.1)
        (isEmpty_iff.1 hempty) hstable
      refine (ih hparts.2 hfirst (Nat.le_trans hlo hle) hadded
        (shaped_append hshape (.cons hd .nil))).mono fun r s₂ ⟨hle', hall, hshape'⟩ => ?_
      refine ⟨Nat.le_trans hle hle', ?_, ?_⟩
      · simpa using hall
      · simpa using hshape'
    · rw [if_neg hempty]
      refine (ht.gives_spillUnstable hs₁ hfirst (Nat.le_trans hlo hle) hle).bind fun r s₂ hr₂ => ?_
      obtain ⟨hle₂, hcollects, hstable₂, hshape₂⟩ := hr₂
      -- what holds now uses temporaries from before and after those of the new value
      have hlow : ∀ y, Zone s.next s₁.next s₂.next y → Range tempBase.toNat s₂.next y := by
        rintro y (hy | hy)
        · exact ⟨hy.1, by have := hy.2; omega⟩
        · exact ⟨Nat.le_trans hs₁ hy.1, hy.2⟩
      have hapart : ∀ y, Zone s.next s₁.next s₂.next y → ¬ Range s.next s₁.next y := by
        rintro y (hy | hy) hy'
        · exact absurd hy.2 (Nat.not_lt.2 hy'.1)
        · exact absurd hy'.2 (Nat.not_lt.2 hy.1)
      have htaken := hcollects.taken hr hlow hapart (fun y hy => hy.mono hlo hle₂) hstable₂
        fun hv => (hstable hv).mono fun y hy => hy.mono .refl hle₂
      have hshape₃ : Shaped (r.2 ++ [h.value]) (sources ++ [p.source]) :=
        shaped_append (hshape₂.trans hshape) (.cons hd .nil)
      refine (ih hparts.2 hfirst (Nat.le_trans hlo (Nat.le_trans hle hle₂)) htaken
        hshape₃).bind fun r₃ s₃ ⟨hle₃, hall, hshape'⟩ => gives_pure ?_
      refine ⟨Nat.le_trans hle (Nat.le_trans hle₂ hle₃), ?_, ?_⟩
      · simpa using hall
      · simpa using hshape'

/-- Values are taken from left to right. -/
theorem gives_operands (hs : S.first ≤ s.next) :
    Gives (operands (parts.map Wanted.taken)) s fun r s' => s.next ≤ s'.next ∧
      RealizesAll S (Range s.next s'.next) r.1 r.2 (parts.map Wanted.meaning) ∧
      Shaped r.2 (parts.map Wanted.source) :=
  gives_operandsAfter hparts hs .refl (.intro (fun _ => False) (fun _ => False) [] [] [] [] [] rfl
    rfl rfl (fun _ _ _ _ _ hm => agree_pure (hm.known_mono ⟨hm.known, .nil⟩)) (fun _ h => h.elim)
      (fun _ h => h.elim) (fun _ h => h.elim) nofun .nil nofun nofun) .nil

end

end Operands

end LuaBackend.Normalize.Meaning
