import LuaBackend.Proofs.Normalize.Prediction

/-!
# Scopes of normalized code

Lowering moves code into other scopes. `WellScoped R l` says that the
lowering of a node keeps to a rule of scoping, whatever the declarations
around it.

The temporaries of a run have numbers that nothing older mentions (`New`,
`Known`). Declarations of the program come into new scopes only where a
declaration stands for a value, where the right side of an assignment
stores into the left side from its ends, and where an initial value does
so; `Tidy` asks of these that they do not matter for the variables
concerned.
-/

namespace LuaBackend

open List UInt32

namespace Expr

def operands : Expr → List Expr
  | paren .. | annot .. | function .. | block .. | tryCatch .. => []
  | forIn _ _ iterator _ => [iterator]
  | ite _ _ cond _ _ => [cond]
  | loop _ _ cond _ => [cond]
  | switch _ _ subject cases _ => subject :: cases.flatMap Case.values
  | e => e.children

end Expr

open Expr

namespace ScopeRule

def Ignores (R : ScopeRule) (d : Var) : Prop := ∀ v, R.apart d v

/-- Lowering the node captures nothing. A declaration that stands for a
value comes into the scope of all that follows; what a block on the right
side of an assignment declares comes around the left side; and a local is
declared before a block that is its initial value. -/
def Tidy (R : ScopeRule) (e : Expr) : Prop :=
  (∀ c ∈ e.operands, ∀ d ∈ c.declares, R.Ignores d) ∧
  match e with
  | .binary _ _ .assign lhs rhs =>
    rhs.bare.isBlockLike = true → Names (fun v => Binds (fun d => R.apart d v) rhs) lhs
  | .varDecl _ x (some init) =>
    init.bare.isBlockLike = true → Names (fun v => R.apart x v ∧ R.apart v x) init
  | _ => True

/-- A temporary from `a` up to `b`, or a variable of the program whose
declaration does not matter. -/
def New (R : ScopeRule) (a b : Nat) (d : Var) : Prop :=
  (d.isTemp = true ∧ a ≤ d.id.toNat ∧ d.id.toNat < b) ∨ (d.isTemp = false ∧ R.Ignores d)

end ScopeRule

namespace Normalize.Scoping

variable {d v : Var} {D : List Var}
variable {a' b' : Nat} {needed : Bool} {value : Expr}
variable {e : Expr}

/-- A temporary below `n`, or a variable of the program with `V`. -/
def Known (V : Var → Prop) (n : Nat) (v : Var) : Prop :=
  (v.isTemp = true → v.id.toNat < n) ∧ (v.isTemp = false → V v)

variable {R : ScopeRule} {V B : Var → Prop} {a b c n : Nat} {E : List Var} {s s' : TempSupply}

theorem Known.mono (h : Known V a v) (hab : a ≤ b) : Known V b v :=
  ⟨fun ht => Nat.lt_of_lt_of_le (h.1 ht) hab, h.2⟩

theorem apart_of_isTemp_ne (h : d.isTemp ≠ v.isTemp) : R.apart d v := by
  refine R.apart_temp ?_ fun hid => h ?_
  · cases hd : d.isTemp with
    | true => exact .inl rfl
    | false =>
      rw [hd] at h
      exact .inr (Bool.not_eq_false _ ▸ h.symm)
  · unfold Var.isTemp
    rw [hid]

/-- What is new does not matter for what was known before. -/
theorem New.apart (hd : R.New a b d) (hv : Known V a v) : R.apart d v := by
  rcases hd with ⟨hd, hlow, -⟩ | ⟨-, hd⟩
  · cases hv' : v.isTemp with
    | true =>
      have := hv.1 hv'
      refine R.apart_temp (.inl hd) ?_
      rintro hid
      rw [hid] at hlow
      omega
    | false => exact apart_of_isTemp_ne (by rw [hd, hv']; decide)
  · exact hd v

/-- What is new does not matter for later temporaries. -/
theorem New.apart_later {t : Var} (hd : R.New a b d) (ht : t.isTemp = true) (hb : b ≤ t.id.toNat) :
    R.apart d t := by
  rcases hd with ⟨-, -, hhigh⟩ | ⟨-, hd⟩
  · refine R.apart_temp (.inr ht) ?_
    rintro hid
    rw [hid] at hhigh
    omega
  · exact hd t

theorem New.mono (hd : R.New a b d) (ha : a' ≤ a) (hb : b ≤ b') : R.New a' b' d := by
  rcases hd with ⟨ht, hlow, hhigh⟩ | hd
  · exact .inl ⟨ht, by omega, by omega⟩
  · exact .inr hd

/-- The node names known variables, declares variables of the program with
`B` only, and is tidy. -/
structure Source (R : ScopeRule) (V B : Var → Prop) (n : Nat) (e : Expr) : Prop where
  names : Naming (Known V n) e
  binds : ∀ d ∈ e.binders, d.isTemp = false ∧ B d
  tidy : R.Tidy e

/-- The tree can be lowered in the scope of `E`, from the temporary `n` on. -/
abbrev Fits (R : ScopeRule) (V B : Var → Prop) (n : Nat) (E : List Var) (e : Expr) : Prop :=
  Scoped R (Source R V B n) E e

/-- The tree keeps to the rule in the scope of `E` and names known variables. -/
abbrev Obeys (R : ScopeRule) (V : Var → Prop) (n : Nat) (E : List Var) (e : Expr) : Prop :=
  Scoped R (Naming (Known V n)) E e

/-- Statements that a run has left, to run before something else. -/
structure Before (R : ScopeRule) (V : Var → Prop) (E : List Var) (a b : Nat)
    (stmts : List Expr) : Prop where
  le : a ≤ b
  run : ScopedSeq R (Naming (Known V b)) E stmts
  new : ∀ d ∈ declared stmts, R.New a b d

/-- A value that a run has left, after statements. -/
structure Leaves (R : ScopeRule) (V : Var → Prop) (E : List Var) (a b : Nat) (h : Hoisted) :
    Prop where
  before : Before R V E a b h.stmts
  value : Obeys R V b (declared h.stmts ++ E) h.value
  plain : h.value.declares = []

/-- Several values that a run has left, after statements. -/
structure LeavesAll (R : ScopeRule) (V : Var → Prop) (E : List Var) (a b : Nat)
    (stmts values : List Expr) : Prop where
  before : Before R V E a b stmts
  keeps : ∀ v ∈ values, Obeys R V b (declared stmts ++ E) v
  plain : ∀ v ∈ values, v.declares = []

/-- Statements that a run has left for one that brings `D` into scope. -/
structure Replaces (R : ScopeRule) (V : Var → Prop) (E : List Var) (a b : Nat) (D : List Var)
    (stmts : List Expr) : Prop where
  le : a ≤ b
  run : ScopedSeq R (Naming (Known V b)) E stmts
  scope : Inserts (R.New a b) D (declared stmts)

/-- A place to store into: it keeps to the rule, and nothing that the node
may declare matters for it. -/
def Receives (R : ScopeRule) (V B : Var → Prop) (n : Nat) (E : List Var)
    (assignee : Option Expr) : Prop :=
  ∀ p ∈ assignee, Obeys R V n E p ∧ Names (fun v => ∀ d, d.isTemp = false → B d → R.apart d v) p

/-- The declarations around are older than the temporaries to come. -/
structure Around (E : List Var) (s : TempSupply) : Prop where
  reserved : Reserved s
  below : ∀ d ∈ E, d.isTemp = true → d.id.toNat < s.next

theorem around_nil (hs : Reserved s) : Around [] s := ⟨hs, nofun⟩

/-- A tree that keeps to the rule names known variables. -/
theorem Scoped.known {Q : Expr → Prop} (h : Scoped R Q E e) (hQ : ∀ n, Q n → Naming (Known V a) n) :
    Names (Known V a) e :=
  h.throughout.mono hQ

theorem names_apart (h : Names (Known V a) e) (hd : R.New a b d) : Names (R.apart d) e :=
  h.mono fun _ hv => New.apart hd hv

theorem naming_mono (h : Naming (Known V a) e) (hab : a ≤ b) : Naming (Known V b) e :=
  fun v hv => (h v hv).mono hab

theorem Obeys.mono (h : Obeys R V a E e) (hab : a ≤ b) : Obeys R V b E e :=
  Scoped.mono h fun _ hn => naming_mono hn hab

theorem Fits.mono (h : Fits R V B a E e) (hab : a ≤ b) : Fits R V B b E e :=
  Scoped.mono h fun _ hn => ⟨naming_mono hn.names hab, hn.binds, hn.tidy⟩

theorem Fits.known (h : Fits R V B a E e) : Names (Known V a) e :=
  Scoped.known h fun _ hn => hn.names

theorem Obeys.known (h : Obeys R V a E e) : Names (Known V a) e :=
  Scoped.known h fun _ hn => hn

/-- What is new may come around a tree, also further out. -/
theorem Obeys.between {l : List Var} (h : Obeys R V a (l ++ E) e) (hD : ∀ d ∈ D, R.New a b d)
    (hab : a ≤ b) : Obeys R V b (l ++ (D ++ E)) e :=
  Obeys.mono (Scoped.inserts (A := []) (inserts_nil_left.2 hD)
    (fun _ hd => names_apart (Obeys.known h) hd) h) hab

theorem Obeys.under (h : Obeys R V a E e) (hD : ∀ d ∈ D, R.New a b d) (hab : a ≤ b) :
    Obeys R V b (D ++ E) e :=
  Obeys.between (l := []) h hD hab

theorem Fits.under (h : Fits R V B a E e) (hD : ∀ d ∈ D, R.New a b d) (hab : a ≤ b) :
    Fits R V B b (D ++ E) e :=
  Fits.mono (Scoped.weaken (fun d hd => names_apart (Fits.known h) (hD d hd)) h) hab

section Before

variable {stmts more : List Expr} {e : Expr}

/-- A tree may stand after the statements. -/
theorem Obeys.after (h : Obeys R V a E e) (hs : Before R V E a b stmts) :
    Obeys R V b (declared stmts ++ E) e := Obeys.under h hs.new hs.le

theorem Fits.after (h : Fits R V B a E e) (hs : Before R V E a b stmts) :
    Fits R V B b (declared stmts ++ E) e := Fits.under h hs.new hs.le

theorem Around.mono (h : Around E s) (hle : s.next ≤ s'.next) : Around E s' :=
  ⟨Nat.le_trans h.reserved hle, fun d hd ht => Nat.lt_of_lt_of_le (h.below d hd ht) hle⟩

/-- Declarations of the program, and new ones, may come around. -/
theorem Around.under (h : Around E s) (hle : s.next ≤ s'.next)
    (hD : ∀ d ∈ D, d.isTemp = true → d.id.toNat < s'.next) : Around (D ++ E) s' :=
  ⟨(h.mono hle).reserved, forall_mem_append.2 ⟨hD, (h.mono hle).below⟩⟩

theorem New.below (h : R.New a b d) (ht : d.isTemp = true) : d.id.toNat < b := by
  rcases h with ⟨-, -, hb⟩ | ⟨hf, -⟩
  · exact hb
  · rw [hf] at ht
    cases ht

theorem Around.after (h : Around E s) (hs : Before R V E s.next s'.next stmts) :
    Around (declared stmts ++ E) s' :=
  h.under hs.le fun d hd => New.below (hs.new d hd)

theorem Before.mono (h : Before R V E a b stmts) (ha : a' ≤ a) (hb : b ≤ b') :
    Before R V E a' b' stmts where
  le := Nat.le_trans (Nat.le_trans ha h.le) hb
  run := h.run.mono fun _ hn => naming_mono hn hb
  new := fun d hd => New.mono (h.new d hd) ha hb

theorem before_nil : Before R V E a a [] :=
  ⟨Nat.le_refl a, scopedSeq_nil, nofun⟩

section

variable (h : Before R V E a b stmts)
include h

theorem Before.append
    (h' : Before R V (declared stmts ++ E) b c more) : Before R V E a c (stmts ++ more) where
  le := Nat.le_trans h.le h'.le
  run := scopedSeq_append.2 ⟨(h.mono (Nat.le_refl a) h'.le).run, h'.run⟩
  new := by
    rw [declared_append, forall_mem_append]
    exact ⟨(h'.mono h.le (Nat.le_refl c)).new, (h.mono (Nat.le_refl a) h'.le).new⟩

theorem Before.snoc (he : Obeys R V b (declared stmts ++ E) e)
    (hd : e.declares = []) : Before R V E a b (stmts ++ [e]) := by
  refine h.append ⟨Nat.le_refl b, ?_, ?_⟩
  · exact (scopedSeq_cons e []).2 ⟨he, scopedSeq_nil⟩
  · rw [declared_cons, hd]
    exact fun d hd => nomatch hd

/-- Statements made later may be put in front. -/
theorem Before.prepend (h' : Before R V E b c more) : Before R V E a c (more ++ stmts) where
  le := Nat.le_trans h.le h'.le
  run := by
    refine scopedSeq_append.2 ⟨h'.run, ?_⟩
    have hknown (e : Expr) (he : e ∈ stmts) : Names (Known V b) e := h.run.throughout e he
    have hrun := h.run.weaken fun d hd e he => names_apart (hknown e he) (h'.new d hd)
    exact hrun.mono fun _ hn => naming_mono hn h'.le
  new := by
    rw [declared_append, forall_mem_append]
    exact ⟨(h.mono (Nat.le_refl a) h'.le).new, (h'.mono h.le (Nat.le_refl c)).new⟩

theorem Before.replaces : Replaces R V E a b [] stmts :=
  ⟨h.le, h.run, inserts_nil_left.2 h.new⟩

end

/-- Statements whose declarations do not matter. -/
theorem Replaces.before (h : Replaces R V E a b D stmts)
    (hD : ∀ d ∈ D, d.isTemp = false ∧ R.Ignores d) : Before R V E a b stmts :=
  ⟨h.le, h.run, h.scope.forall (fun d hd => .inr (hD d hd)) fun _ hd => hd⟩

end Before

/-! ## Temporaries -/

section Temp

variable {type : Ty} {loc : Loc}

theorem toNat_nextTemp (hs : s.next < size) : (nextTemp s type).id.toNat = s.next :=
  toNat_ofNat_of_lt' hs

/-- Nothing around matters for the next temporary. -/
theorem Around.apart_nextTemp (h : Around E s) (hs : s.next < size) :
    ∀ d ∈ E, R.apart d (nextTemp s type) := by
  intro d hd
  have ht : (nextTemp s type).isTemp = true := isTemp_nextTemp h.reserved hs
  cases hdt : d.isTemp with
  | true =>
    have hlt := h.below d hd hdt
    refine R.apart_temp (.inr ht) ?_
    rintro hid
    rw [hid, toNat_nextTemp hs] at hlt
    omega
  | false => exact apart_of_isTemp_ne (by rw [hdt, ht]; decide)

theorem known_nextTemp (h : Reserved s) (hs : s.next < size) :
    Known V (s.next + 1) (nextTemp s type) := by
  have ht : (nextTemp s type).isTemp = true := isTemp_nextTemp h hs
  refine ⟨fun _ => ?_, fun hf => ?_⟩
  · rw [toNat_nextTemp hs]
    omega
  · rw [ht] at hf
    cases hf

theorem new_nextTemp (h : Reserved s) (hs : s.next < size) :
    R.New s.next (s.next + 1) (nextTemp s type) := by
  refine .inl ⟨isTemp_nextTemp h hs, ?_, ?_⟩
  · exact Nat.le_of_eq (toNat_nextTemp hs).symm
  · rw [toNat_nextTemp hs]
    omega

section

variable (h : Around E s) (hs : s.next < size)
include h hs

/-- The next temporary can be read where it was declared. -/
theorem Around.obeys_nextTemp :
    Obeys R V (s.next + 1) (nextTemp s type :: E) (.local loc (nextTemp s type)) := by
  refine scoped_local.2 ⟨?_, ?_⟩
  · exact R.reads_own (l := []) (isTemp_nextTemp h.reserved hs) nofun (h.apart_nextTemp hs)
  · intro v hv
    rw [mem_singleton.1 hv]
    exact known_nextTemp h.reserved hs

/-- The declaration of the next temporary. -/
theorem Around.before_nextTemp {init : Option Expr} (hinit : ∀ i ∈ init, Obeys R V s.next E i) :
    Before R V E s.next (s.next + 1) [.varDecl loc (nextTemp s type) init] where
  le := Nat.le_succ _
  run := by
    refine (scopedSeq_cons _ _).2 ⟨scoped_varDecl.2 ⟨⟨?_, ?_⟩, ?_⟩, scopedSeq_nil⟩
    · exact R.declares_own (isTemp_nextTemp h.reserved hs) (h.apart_nextTemp hs)
    · intro v hv
      rw [mem_singleton.1 hv]
      exact known_nextTemp h.reserved hs
    · exact fun i hi => Obeys.mono (hinit i hi) (Nat.le_succ _)
  new := by
    intro d hd
    obtain rfl : d = nextTemp s type := mem_singleton.1 hd
    exact new_nextTemp h.reserved hs

theorem Around.afterTemp : Around (nextTemp s type :: E) (afterTemp s) := by
  refine Around.under (D := [nextTemp s type]) h (Nat.le_succ _) fun d hd _ => ?_
  rw [mem_singleton.1 hd, toNat_nextTemp hs]
  exact Nat.lt_succ_self _

end

/-- A value is moved into a temporary, or stays. -/
theorem gives_spill_leaves (h : Around E s) (hv : Obeys R V s.next E value)
    (hd : value.declares = []) :
    Gives (spill needed value) s fun r s' => Leaves R V E s.next s'.next r := by
  refine gives_spill (fun _ hs => ?_) fun _ => ⟨before_nil, hv, hd⟩
  refine ⟨h.before_nextTemp hs fun i hi => Option.some.inj hi ▸ hv, ?_, rfl⟩
  exact h.obeys_nextTemp hs

end Temp

/-- The same of a value that was left. -/
theorem Leaves.gives_spill {h : Hoisted} (hh : Leaves R V E s.next s'.next h) (hE : Around E s) :
    Gives (spill needed h.value) s' fun r s₂ =>
      Leaves R V E s.next s₂.next ⟨h.stmts ++ r.stmts, r.value⟩ := by
  refine (gives_spill_leaves (hE.after hh.before) hh.value hh.plain).mono fun r s₂ hr => ?_
  refine ⟨hh.before.append hr.before, ?_, hr.plain⟩
  rw [declared_append, append_assoc]
  exact hr.value

def ValueScoped (R : ScopeRule) (e : Expr) (value : Norm Hoisted) : Prop :=
  ∀ ⦃V B E s⦄, Around E s → Fits R V B s.next E e → (∀ d ∈ e.declares, R.Ignores d) →
    Gives value s fun h s' => Leaves R V E s.next s'.next h

def StmtScoped (R : ScopeRule) (e : Expr) (stmt : Option Expr → Norm (List Expr)) : Prop :=
  ∀ ⦃V B E s assignee⦄, Around E s → Fits R V B s.next E e → Receives R V B s.next E assignee →
    Gives (stmt assignee) s fun stmts s' => Replaces R V E s.next s'.next e.declares stmts

def BodyScoped (R : ScopeRule) (e : Expr) (body : Option Expr → Norm (List Expr)) : Prop :=
  ∀ ⦃V B E s assignee⦄, Around E s → Fits R V B s.next E e → Receives R V B s.next E assignee →
    Gives (body assignee) s fun stmts s' =>
      s.next ≤ s'.next ∧ ScopedSeq R (Naming (Known V s'.next)) E stmts

/-- The lowering keeps to the rule wherever its node stands. -/
structure WellScoped (R : ScopeRule) (l : Lowering) : Prop where
  value : ValueScoped R l.source l.value
  target : ∀ how, ValueScoped R l.source (l.target how)
  stmt : StmtScoped R l.source l.stmt
  body : BodyScoped R l.source l.body

/-- The node stands for a value. -/
structure Operand (R : ScopeRule) (V B : Var → Prop) (n : Nat) (E : List Var) (e : Expr) :
    Prop where
  fits : Fits R V B n E e
  ignores : ∀ d ∈ e.declares, R.Ignores d

theorem WellScoped.taken {l : Lowering} (h : WellScoped R l) (hE : Around E s)
    (ho : Operand R V B s.next E l.source) :
    Gives l.value s fun h s' => Leaves R V E s.next s'.next h :=
  h.value hE ho.fits ho.ignores

theorem Operand.mono (h : Operand R V B a E e) (hab : a ≤ b) : Operand R V B b E e :=
  ⟨Fits.mono h.fits hab, h.ignores⟩

theorem Operand.after {stmts : List Expr} (h : Operand R V B a E e) (hs : Before R V E a b stmts) :
    Operand R V B b (declared stmts ++ E) e :=
  ⟨Fits.after h.fits hs, h.ignores⟩

/-! ## Operands -/

/-- The value names what was known before `n`, and temporaries from `m` on. -/
def Straddles (V : Var → Prop) (n m : Nat) : Expr → Prop :=
  Names fun v => Known V n v ∨ (v.isTemp = true ∧ m ≤ v.id.toNat)

/-- What was new in between does not matter for such a value. -/
theorem Straddles.under (h : Straddles V a b e) (he : Obeys R V c E e) (hD : ∀ d ∈ D, R.New a b d) :
    Obeys R V c (D ++ E) e := by
  refine Scoped.weaken (fun d hd => h.mono fun v hv => ?_) he
  rcases hv with hv | ⟨ht, hb⟩
  · exact New.apart (hD d hd) hv
  · exact New.apart_later (hD d hd) ht hb

theorem gives_spill_straddles (hs : Reserved s) (hv : Names (Known V n) value) :
    Gives (spill needed value) s fun r _ => Straddles V n s.next r.value := by
  refine gives_spill (fun _ hlt => ?_) fun _ => hv.mono fun _ h => .inl h
  refine ⟨fun v hv => .inr ?_, nofun⟩
  rw [mem_singleton.1 hv]
  exact ⟨isTemp_nextTemp hs hlt, Nat.le_of_eq (toNat_nextTemp hlt).symm⟩

/-- Values are moved away one by one. -/
theorem gives_spillUnstable : ∀ {vals : List Expr} {E : List Var} {s : TempSupply}, Around E s →
    (∀ v ∈ vals, Obeys R V s.next E v) → (∀ v ∈ vals, v.declares = []) →
    (∀ v ∈ vals, Names (Known V n) v) →
    Gives (spillUnstable vals) s fun r s' =>
      LeavesAll R V E s.next s'.next r.1 r.2 ∧ ∀ v ∈ r.2, Straddles V n s.next v
  | [], _, _, _, _, _, _ =>
    gives_pure ⟨⟨before_nil, nofun, nofun⟩, nofun⟩
  | v :: rest, E, s, hE, hv, hp, hn => by
    rw [forall_mem_cons] at hv hp hn
    refine ((gives_spill_leaves hE hv.1 hp.1).and (gives_spill_straddles hE.reserved hn.1)).bind ?_
    intro h s₁ ⟨hh, hstraddles⟩
    have hrest : ∀ v ∈ rest, Obeys R V s₁.next (declared h.stmts ++ E) v :=
      fun v hmem => Obeys.after (hv.2 v hmem) hh.before
    refine (gives_spillUnstable (hE.after hh.before) hrest hp.2 hn.2).bind ?_
    intro ⟨stmts, values⟩ s₂ ⟨hr, hstraddles'⟩
    refine gives_pure ⟨⟨hh.before.append hr.before, ?_, ?_⟩, ?_⟩
    · rw [declared_append, append_assoc]
      exact forall_mem_cons.2 ⟨Obeys.after hh.value hr.before, hr.keeps⟩
    · exact forall_mem_cons.2 ⟨hh.plain, hr.plain⟩
    · refine forall_mem_cons.2 ⟨hstraddles, fun v hmem => (hstraddles' v hmem).mono ?_⟩
      exact fun w hw => hw.imp_right fun ⟨ht, hle⟩ => ⟨ht, Nat.le_trans hh.before.le hle⟩

/-- Values are taken from left to right after others. -/
theorem gives_operandsAfter_leaves : ∀ {ls : List Lowering}, (∀ l ∈ ls, WellScoped R l) →
    ∀ {E : List Var} {s : TempSupply} {done : List Expr}, Around E s →
    (∀ l ∈ ls, Operand R V B s.next E l.source) →
    (∀ v ∈ done, Obeys R V s.next E v) → (∀ v ∈ done, v.declares = []) →
    Gives (operandsAfter done (ls.map Lowering.value)) s fun r s' =>
      LeavesAll R V E s.next s'.next r.1 r.2
  | [], _, _, _, _, _, _, hd, hp => gives_pure ⟨before_nil, hd, hp⟩
  | l :: rest, hls, E, s, done, hE, ho, hd, hp => by
    rw [forall_mem_cons] at hls ho
    refine (hls.1.taken hE ho.1).bind fun h s₁ hh => ?_
    have hle := hh.before.le
    dsimp only
    split
    · -- nothing has to run before the value, so the ones before it stay
      rename_i hempty
      have hvalue := hh.value
      rw [isEmpty_iff.1 hempty] at hvalue
      refine (gives_operandsAfter_leaves hls.2 (hE.mono hle)
        (fun l' hl' => (ho.2 l' hl').mono hle) ?_ ?_).mono fun r s₂ hr =>
          ⟨hr.before.mono hle .refl, hr.keeps, hr.plain⟩
      · refine forall_mem_append.2 ⟨fun v hv => Obeys.mono (hd v hv) hle, ?_⟩
        exact fun v hv => mem_singleton.1 hv ▸ hvalue
      · exact forall_mem_append.2 ⟨hp, fun v hv => mem_singleton.1 hv ▸ hh.plain⟩
    · -- the values before it go to temporaries, which are declared before its statements
      have hknown : ∀ v ∈ done, Names (Known V s.next) v := fun v hv => Obeys.known (hd v hv)
      refine (gives_spillUnstable (hE.mono hle) (fun v hv => Obeys.mono (hd v hv) hle) hp
        hknown).bind ?_
      intro ⟨spills, done'⟩ s₂ ⟨hs, hstraddles⟩
      have hbefore := hh.before.prepend hs.before
      have hdone : ∀ v ∈ done' ++ [h.value],
          Obeys R V s₂.next (declared (spills ++ h.stmts) ++ E) v := by
        rw [declared_append, append_assoc]
        refine forall_mem_append.2 ⟨fun v hv => ?_, fun v hv => ?_⟩
        · exact (hstraddles v hv).under (hs.keeps v hv) hh.before.new
        · rw [mem_singleton.1 hv]
          exact Obeys.between hh.value hs.before.new hs.before.le
      have hplain : ∀ v ∈ done' ++ [h.value], v.declares = [] :=
        forall_mem_append.2 ⟨hs.plain, fun v hv => mem_singleton.1 hv ▸ hh.plain⟩
      refine (gives_operandsAfter_leaves hls.2 (hE.after hbefore)
        (fun l' hl' => (ho.2 l' hl').after hbefore) hdone hplain).bind ?_
      intro ⟨stmts, values⟩ s₃ hr
      refine gives_pure ⟨hbefore.append hr.before, ?_, hr.plain⟩
      simpa only [declared_append, append_assoc] using hr.keeps

theorem gives_operands_leaves {ls : List Lowering} (hls : ∀ l ∈ ls, WellScoped R l)
    (hE : Around E s) (ho : ∀ l ∈ ls, Operand R V B s.next E l.source) :
    Gives (operands (ls.map Lowering.value)) s fun r s' =>
      LeavesAll R V E s.next s'.next r.1 r.2 :=
  gives_operandsAfter_leaves hls hE ho nofun nofun

theorem forall_headD {P : Expr → Prop} {vs : List Expr} (h : ∀ v ∈ vs, P v) (hn : P .omitted) :
    P (vs.headD .omitted) ∧ ∀ v ∈ vs.tail, P v := by
  cases vs with
  | nil => exact ⟨hn, nofun⟩
  | cons => exact forall_mem_cons.1 h

theorem obeys_omitted : Obeys R V n E .omitted := (scoped_leaf rfl).2 nofun

theorem gives_operandPair_leaves {l r : Lowering} (hl : WellScoped R l) (hr : WellScoped R r)
    (hE : Around E s) (hol : Operand R V B s.next E l.source) (hor : Operand R V B s.next E r.source) :
    Gives (operandPair l.value r.value) s fun p s' =>
      LeavesAll R V E s.next s'.next p.1 [p.2.1, p.2.2] := by
  rw [operandPair_eq]
  have hls : ∀ l' ∈ [l, r], WellScoped R l' := forall_mem_cons.2 ⟨hl, forall_mem_singleton.2 hr⟩
  refine (gives_operands_leaves hls hE (forall_mem_cons.2
    ⟨hol, forall_mem_singleton.2 hor⟩)).bind fun _ s₁ h => gives_pure ?_
  have hobeys := forall_headD h.keeps obeys_omitted
  have hplain := forall_headD h.plain rfl
  exact ⟨h.before,
    forall_mem_cons.2 ⟨hobeys.1, forall_mem_singleton.2 (forall_headD hobeys.2 obeys_omitted).1⟩,
    forall_mem_cons.2 ⟨hplain.1, forall_mem_singleton.2 (forall_headD hplain.2 rfl).1⟩⟩

end Normalize.Scoping

end LuaBackend
