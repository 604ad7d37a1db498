import LuaBackend.Proofs.Semantics.Confined
import LuaBackend.Proofs.Semantics.Simulation
import LuaBackend.Proofs.Tree.Scope

/-!
# Locals that a program does not name

A tree looks at the locals that it names and sets no others. So from
states that agree on these it does the same, and what is known of other
locals stays known. A computation of which this holds stays `Within` a
scope; the operations that computations are put together with keep it.
-/

namespace LuaBackend

namespace Simulation

open List Exec

variable {M : Machine} {α β : Type} {Γ : Scope}
variable {y : UInt32} {es : List Expr} {e : Expr}
variable {part : Option Expr}

/-- From states that match it does the same, with a value that has `Q`, and
keeps what is known of locals outside the scope. -/
def Stays (Γ : Scope) (x : Exec M α) (Q : α → Prop) : Prop :=
  ∀ I : Known M, Rests I (fun y => Γ y = false) → ∀ σ τ, Match Γ I σ τ →
    Agree (x σ) x τ (fun a b σ' τ' => Q a ∧ Same Γ I a b σ' τ') (Match Γ I)

abbrev Within (Γ : Scope) (x : Exec M α) : Prop := Stays Γ x fun _ => True

section Rules

variable {x : Exec M α} {f : α → Exec M β} {Q : α → Prop} {R : β → Prop}

theorem stays_pure {a : α} (h : Q a) : Stays Γ (pure a : Exec M α) Q :=
  fun _ _ _ _ hm => agree_pure ⟨h, rfl, hm⟩

theorem within_pure (a : α) : Within Γ (pure a : Exec M α) := stays_pure trivial

/-- The second part may use what is known of the value. -/
theorem Stays.bind (hx : Stays Γ x Q) (hf : ∀ a, Q a → Stays Γ (f a) R) : Stays Γ (x >>= f) R := by
  intro I hI σ τ hm
  refine (hx I hI σ τ hm).bind (Q := fun r => Ends r fun a b σ' τ' => R a ∧ Same Γ I a b σ' τ') ?_
  rintro a _ σ' τ' ⟨ha, rfl, hm'⟩
  exact hf a ha I hI σ' τ' hm'

theorem Within.bind (hx : Within Γ x) (hf : ∀ a, Within Γ (f a)) : Within Γ (x >>= f) :=
  Stays.bind hx fun a _ => hf a

theorem Within.map {g : α → β} (hx : Within Γ x) (hg : ∀ a, R (g a)) :
    Stays Γ (x >>= fun a => pure (g a)) R :=
  Stays.bind hx fun a _ => stays_pure (hg a)

theorem within_get (hy : Γ y = true) : Within Γ (get y : Exec M M.Value) :=
  fun _ _ _ _ hm => (agree_get hm hy).mono fun _ _ _ _ h => ⟨trivial, h⟩

theorem within_set (hy : Γ y = true) (v : M.Value) : Within Γ (set y v) := by
  intro I hI σ τ hm
  have hout : ¬ Γ y = false := by
    rw [hy]
    exact Bool.noConfusion
  exact steps_of_ok rfl ⟨(), _, rfl, trivial, rfl, (hm.set hI hout).scope_mono fun _ =>
    Scope.le_bind⟩

theorem within_read (f : M.World → M.Value) : Within Γ (read f) :=
  fun _ _ _ _ hm => (agree_read f hm).mono fun _ _ _ _ h => ⟨trivial, h⟩

theorem within_modify (f : M.World → M.World) : Within Γ (modify f) := by
  intro I hI σ τ hm
  refine steps_of_ok rfl ⟨(), _, rfl, trivial, rfl, ?_⟩
  exact ⟨congrArg f hm.world, hm.trace, hm.locals, hm.known⟩

theorem within_jump (j : Jump M.Value) : Within Γ (jump j : Exec M α) :=
  fun _ _ _ _ hm => agree_jump hm

theorem within_perform (event : Event M.Value) : Within Γ (perform event) :=
  fun _ _ _ _ hm => (agree_perform event hm).mono fun _ _ _ _ h => ⟨trivial, h⟩

/-- The same, in terms of the rules for loops. -/
theorem within_iff : Within Γ x ↔ ∀ I : Known M, Rests I (fun y => Γ y = false) →
    ∀ σ τ, Match Γ I σ τ → Agree (x σ) x τ (Same Γ I) (Match Γ I) :=
  ⟨fun h I hI σ τ hm => (h I hI σ τ hm).mono fun _ _ _ _ hab => hab.2,
    fun h I hI σ τ hm => (h I hI σ τ hm).mono fun _ _ _ _ hab => ⟨trivial, hab⟩⟩

end Rules

theorem Within.round {x : Exec M Bool} (h : Within Γ x) : Within Γ (round x) :=
  within_iff.2 fun I hI σ τ hm => (within_iff.1 h I hI σ τ hm).round

theorem Within.handle {x : Exec M α} {handler : M.Value → Exec M α} (hx : Within Γ x)
    (hh : ∀ v, Within Γ (handler v)) : Within Γ (handle x handler) :=
  fun I hI σ τ hm => (hx I hI σ τ hm).handle (fun _ _ => id) fun v σ' τ' => hh v I hI σ' τ'

abbrev staying (M : Machine) (Γ : Scope) : Congruence M where
  rel x y := x = y ∧ Within Γ x
  pure a := ⟨rfl, within_pure a⟩
  jump j := ⟨rfl, within_jump j⟩
  stuck := ⟨rfl, fun _ _ _ _ _ => rfl⟩
  bind hx hf := ⟨congr (congrArg _ hx.1) (funext fun a => (hf a).1), hx.2.bind fun a => (hf a).2⟩
  round h := ⟨congrArg _ h.1, h.2.round⟩
  handle hx hh := ⟨congr (congrArg _ hx.1) (funext fun v => (hh v).1),
    hx.2.handle fun v => (hh v).2⟩

def InScope (Γ : Scope) (p : Place M.Value) : Prop := ∀ y, p = .local y → Γ y = true

theorem within_load {p : Place M.Value} (hp : InScope Γ p) : Within Γ (load p) := by
  cases p with
  | «local» y => exact within_get (hp y rfl)
  | member | element => exact within_read _
  | nowhere => exact within_pure _

theorem within_store {p : Place M.Value} (hp : InScope Γ p) (v : M.Value) :
    Within Γ (store p v) := by
  cases p with
  | «local» y => exact within_set (hp y rfl) v
  | member | element => exact within_modify _
  | nowhere => exact within_pure _

section Operators

variable {lhs rhs : Exec M M.Value} {place : Exec M (Place M.Value)}

/-- An operator that stores needs its place in scope. -/
theorem within_binary (op : BinaryOp) (hl : Within Γ lhs) (hp : Stays Γ place (InScope Γ))
    (hr : Within Γ rhs) : Within Γ (binary op lhs place rhs) := by
  cases op with
  | assign =>
    exact hp.bind fun p h => hr.bind fun v => (within_store h v).bind fun _ => within_pure v
  | compound =>
    exact hp.bind fun p h => (within_load h).bind fun old => hr.bind fun v =>
      (within_store h _).bind fun _ => within_pure _
  | and | nullCoalesce =>
    refine hl.bind fun a => ?_
    split
    · exact hr
    · exact within_pure a
  | or =>
    refine hl.bind fun a => ?_
    split
    · exact within_pure a
    · exact hr
  | _ => exact hl.bind fun a => hr.bind fun b => within_pure _

theorem within_unary (op : UnaryOp) (isPost : Bool) (ho : Within Γ lhs)
    (hp : Stays Γ place (InScope Γ)) : Within Γ (unary op isPost lhs place) := by
  unfold unary
  split
  · exact hp.bind fun p h => (within_load h).bind fun old =>
      (within_store h _).bind fun _ => within_pure _
  · exact ho.bind fun _ => within_pure _

end Operators

/-! ## Trees -/

section Trees

variable {rounds : Nat}

theorem stays_list (h : ∀ e ∈ es, Within Γ (eval M rounds e)) :
    Forall₂ ((staying M Γ).value rounds) es es :=
  forall₂_same.2 fun e he => ⟨rfl, h e he⟩

theorem stays_option (h : ∀ e ∈ part.toList, Within Γ (eval M rounds e)) :
    Option.Rel ((staying M Γ).value rounds) part part := by
  cases part with
  | none => exact .none
  | some e => exact .some ⟨rfl, h e (.head _)⟩

theorem within_evalReceiver (h : ∀ e ∈ part.toList, Within Γ (eval M rounds e)) :
    Within Γ (evalReceiver M rounds part) := ((staying M Γ).evalReceiver (stays_option h)).2

theorem within_evalPart (h : ∀ e ∈ part.toList, Within Γ (eval M rounds e)) :
    Within Γ (evalPart M rounds part) := ((staying M Γ).evalPart (stays_option h)).2

theorem within_evalList (h : ∀ e ∈ es, Within Γ (eval M rounds e)) :
    Within Γ (evalList M rounds es) := ((staying M Γ).evalList (stays_list h)).2

theorem within_evalCallee {callee : Expr} (h : Within Γ (eval M rounds callee))
    (hparts : ∀ c ∈ callee.children, Within Γ (eval M rounds c)) :
    Within Γ (evalCallee M rounds callee) := by
  cases callee with
  | field => exact (within_evalReceiver hparts).map fun _ => trivial
  | ident => exact within_pure _
  | _ => exact h.map fun _ => trivial

theorem stays_evalPlace (hvars : ∀ v ∈ e.vars, Γ v.id = true)
    (hparts : ∀ c ∈ e.children, Within Γ (eval M rounds c))
    (hplaces : ∀ c ∈ e.children, Stays Γ (evalPlace M rounds c) (InScope Γ)) :
    Stays Γ (evalPlace M rounds e) (InScope Γ) := by
  have hplain {p : Place M.Value} (hp : ∀ y, p ≠ .local y) : InScope Γ p :=
    fun y hy => absurd hy (hp y)
  cases e with
  | «local» loc var =>
    refine stays_pure fun y hy => ?_
    cases hy
    exact hvars var (.head _)
  | field => exact (within_evalReceiver hparts).map fun _ => hplain nofun
  | index =>
    obtain ⟨hbase, hposition⟩ := forall_mem_cons.1 hparts
    exact Stays.bind hbase fun _ _ =>
      (forall_mem_singleton.1 hposition).map fun _ => hplain nofun
  | paren _ _ inner | annot _ _ _ inner => exact hplaces inner (.head _)
  | _ => exact stays_pure (hplain nofun)

/-- For its value, as a place and as a callee, the tree stays within the
scope. -/
structure TreeWithin (M : Machine) (rounds : Nat) (Γ : Scope) (e : Expr) : Prop where
  value : Within Γ (eval M rounds e)
  place : Stays Γ (evalPlace M rounds e) (InScope Γ)
  callee : Within Γ (evalCallee M rounds e)

/-- A node all parts of which stay within the scope. -/
theorem within_eval (hvars : ∀ v ∈ e.vars, Γ v.id = true)
    (h : ∀ c ∈ e.children, TreeWithin M rounds Γ c) : Within Γ (eval M rounds e) := by
  have hparts : ∀ c ∈ e.children, Within Γ (eval M rounds c) := fun c hc => (h c hc).value
  cases e with
  | omitted | const | typeRef | function => exact within_pure _
  | «local» loc var => exact within_get (hvars var (.head _))
  | ident => exact within_read _
  | brk | cont => exact within_jump _
  | paren _ _ inner | annot _ _ _ inner => exact hparts inner (.head _)
  | field =>
    rw [eval]
    split
    · exact within_pure _
    · exact (within_evalReceiver hparts).bind fun _ => within_read _
  | index _ _ base position =>
    have hposition := hparts position (.tail _ (.head _))
    exact (hparts base (.head _)).bind fun _ => hposition.bind fun _ => within_read _
  | object =>
    rw [eval, evalFields_eq]
    exact (within_evalList hparts).bind fun _ => within_perform _
  | array | new => exact (within_evalList hparts).bind fun _ => within_perform _
  | call loc type callee =>
    -- A callee that is a member is not read as a value, only its receiver is.
    rw [eval_call]
    exact (h callee (.head _)).callee.bind fun _ =>
      (within_evalList (forall_mem_cons.1 hparts).2).bind fun _ => within_perform _
  | binary loc type op lhs rhs =>
    have hlhs := h lhs (.head _)
    exact within_binary op hlhs.value hlhs.place (hparts rhs (.tail _ (.head _)))
  | unary loc type op isPost operand =>
    have hoperand := h operand (.head _)
    exact within_unary op isPost hoperand.value hoperand.place
  | varDecl loc var =>
    exact (within_evalPart hparts).bind fun v =>
      (within_set (hvars var (.head _)) v).bind fun _ => within_pure _
  | block => exact ((staying M Γ).evalSeq (stays_list hparts) _).2
  | forIn loc var =>
    obtain ⟨hiterator, hbody⟩ := forall_mem_cons.1 hparts
    refine hiterator.bind fun it => ((staying M Γ).loop ((staying M Γ).advance
      ⟨rfl, within_perform _⟩ ⟨rfl, ?_⟩ ⟨rfl, within_evalPart hbody⟩) rounds).2
    exact (within_perform _).bind fun element => within_set (hvars var (.head _)) element
  | ite =>
    obtain ⟨hcond, hbranches⟩ := forall_mem_cons.1 hparts
    obtain ⟨htrue, hfalse⟩ := forall_mem_append.1 hbranches
    refine hcond.bind fun v => ?_
    split
    · exact within_evalPart htrue
    · exact within_evalPart hfalse
  | loop loc test =>
    obtain ⟨hcond, hbody⟩ := forall_mem_cons.1 hparts
    cases test with
    | before =>
      exact ((staying M Γ).loop ((staying M Γ).testThen ⟨rfl, hcond⟩
        ⟨rfl, within_evalPart hbody⟩) rounds).2
    | after =>
      exact ((staying M Γ).loopAfter ⟨rfl, hcond⟩ ⟨rfl, within_evalPart hbody⟩ rounds).2
  | switch =>
    obtain ⟨hsubject, hrest⟩ := forall_mem_cons.1 hparts
    obtain ⟨hcases, hdefault⟩ := forall_mem_append.1 hrest
    refine hsubject.bind fun s => ((staying M Γ).select s ⟨rfl, within_evalPart hdefault⟩
      ((staying M Γ).evalCases (forall₂_same.2 fun c hc => ?_))).2
    have hbelow := forall_mem_append.1 fun e he => hcases e (mem_flatMap.2 ⟨c, hc, he⟩)
    exact ⟨stays_list hbelow.1, stays_option hbelow.2⟩
  | ret => exact (within_evalPart hparts).bind fun _ => within_jump _
  | throw _ value => exact (hparts value (.head _)).bind fun _ => within_jump _
  | cast loc type checked inner =>
    have hinner := hparts inner (.head _)
    cases checked with
    | none => exact hinner
    | some => exact hinner.bind fun _ => within_perform _
  | tryCatch =>
    obtain ⟨hbody, hhandlers⟩ := forall_mem_append.1 hparts
    refine (within_evalPart hbody).handle fun v => ((staying M Γ).rescue v
      ((staying M Γ).evalHandlers (forall₂_same.2 fun k hk => ⟨rfl, fun thrown _ => ?_,
        stays_option fun b hb => ?_⟩))).2
    · exact ⟨rfl, within_set (hvars k.var (mem_map_of_mem hk)) thrown⟩
    · exact hhandlers b (mem_filterMap.2 ⟨k, hk, Option.mem_toList.1 hb⟩)
  | enumParam _ _ value | enumIndex _ value =>
    exact (hparts value (.head _)).bind fun _ => within_read _

/-- **A tree stays within the locals that it names.** -/
theorem treeWithin_of_names (h : e.Names fun v => Γ v.id = true) : TreeWithin M rounds Γ e := by
  induction e using Expr.induction_on_children with
  | step e ih =>
    obtain ⟨hvars, hnames⟩ := Expr.names_iff.1 h
    replace ih : ∀ c ∈ e.children, TreeWithin M rounds Γ c := fun c hc => ih c hc (hnames c hc)
    have hvalue := within_eval hvars ih
    exact ⟨hvalue, stays_evalPlace hvars (fun c hc => (ih c hc).value) fun c hc => (ih c hc).place,
      within_evalCallee hvalue fun c hc => (ih c hc).value⟩

end Trees

end Simulation

end LuaBackend
