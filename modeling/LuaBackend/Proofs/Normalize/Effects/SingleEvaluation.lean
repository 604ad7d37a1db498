import LuaBackend.Proofs.Normalize.Effects.Statements

/-!
# Where effects are written once

The account of a tree says how often normalization writes each effect: all
of them exactly once if and only if as many are cloned as are lost. In a
tree that stores into places only, and where no enum constructor has a
receiver, nothing is lost. Effects are cloned where an assignment of a
pure value without statements is used for its value while its place keeps
an effect: the place is then written twice.
-/

namespace LuaBackend

open List

namespace Expr

variable {e : Expr}

/-- It stores into what is no place, or is an enum constructor with a
receiver. -/
def misplaces : Expr → Bool
  | field _ _ ref (some _) => ref.access = .enumCtor
  | e => e.storesAstray

def Placed (e : Expr) : Prop := e.search misplaces (fun _ => false) = false

/-- A pure value without statements is assigned to a place with effects. -/
def exposes : Expr → Bool
  | binary _ _ .assign lhs rhs => !rhs.hoists && rhs.isPure && !lhs.isPure
  | _ => false

def Unexposed (e : Expr) : Prop := e.search exposes (fun _ => false) = false

/-- Placed, and unexposed if `single` holds. -/
def Tame (single : Prop) (e : Expr) : Prop := Placed e ∧ (single → Unexposed e)

variable {single : Prop}

theorem Tame.child {c : Expr} (h : Tame single e) (hc : c ∈ e.children) : Tame single c :=
  ⟨((search_eq_false e).1 h.1).2 c hc, fun hs => ((search_eq_false e).1 (h.2 hs)).2 c hc⟩

end Expr

namespace Normalize

open Expr

variable {x : Site} {single : Prop}

/-- Nothing is lost, and nothing cloned if `single` holds. -/
structure Balance.Settled (single : Prop) (b : Balance) : Prop where
  lost : b.lost = 0
  clones : single → b.clones = 0

namespace Balance.Settled

theorem zero : (0 : Balance).Settled single := ⟨rfl, fun _ => rfl⟩

theorem add {a b : Balance} (ha : a.Settled single) (hb : b.Settled single) :
    (a + b).Settled single := by
  refine ⟨?_, fun hs => ?_⟩
  · rw [Balance.lost_add, ha.lost, hb.lost]
  · rw [Balance.clones_add, ha.clones hs, hb.clones hs]

/-- Effects that are left are written at least once. -/
theorem ofCopies {copies left : Nat} (hl : 0 < copies ∨ left = 0) (hc : single → left = 0) :
    (Balance.ofCopies copies left).Settled single := by
  refine ⟨?_, fun hs => ?_⟩
  · obtain hpos | rfl := hl
    · have hzero : 1 - copies = 0 := by omega
      rw [Balance.ofCopies, hzero, Nat.zero_mul]
    · exact Nat.mul_zero _
  · rw [Balance.ofCopies, hc hs, Nat.mul_zero]

end Balance.Settled

def Residue.Settled (r : Residue) : Prop := r.pure = true ∨ r.stable = true → r.left = 0

namespace Residue

variable {r : Residue}

theorem settled_spill (h : r.Settled) (needed : Bool) : (r.spill needed).Settled := by
  unfold spill
  split
  · exact fun _ => rfl
  · exact h

theorem settled_before (h : r.Settled) (b : Residue) : (r.before b).Settled :=
  settled_spill h (b.emits && !r.stable)

theorem left_spill_of_left (h : r.left = 0) (needed : Bool) : (r.spill needed).left = 0 := by
  unfold spill
  split
  · rfl
  · exact h

/-- A part that is moved where it has to be keeps no effect. -/
theorem left_spill_moves (h : r.Settled) {how : Spill} (hhow : how ≠ .none) :
    (r.spill (how.moves r)).left = 0 := by
  cases hn : how.moves r with
  | true => rfl
  | false =>
    refine h ?_
    cases how with
    | none => exact absurd rfl hhow
    | impure => exact .inl (by simpa [Spill.moves] using hn)
    | unstable => exact .inr (by simpa [Spill.moves] using hn)

end Residue

/-- Settled values and places, and a settled balance. -/
structure Settled (single : Prop) (a : Account) : Prop where
  value : a.value.Settled
  target : ∀ how, (a.target how).Settled
  place : a.source.bare.isPlace = true → ∀ how, how ≠ .none → (a.target how).left = 0
  pure : a.source.isPure = true → a.value.left = 0 ∧ ∀ how, (a.target how).left = 0
  balance : ∀ use, (a.balance use).Settled single

namespace Settled

open Account Residue

variable {loc : Loc} {type : Ty} {e : Expr} {op : BinaryOp} {lhs rhs : Account} {stored : Bool}
variable {b : Balance} {part : Option Account} {inner : Account} {own : Nat}
variable {cs : List (Case Account)}

theorem ofValue {r : Residue} (hplace : e.bare.isPlace = false) (hr : r.Settled)
    (hpure : e.isPure = true → r.left = 0) (hb : b.Settled single) :
    Settled single (.ofValue e r b) :=
  ⟨hr, fun _ => hr, fun hp => (nomatch hplace.symm.trans hp),
    fun he => ⟨hpure he, fun _ => hpure he⟩, fun _ => hb⟩

/-- A node that is lowered to statements. -/
theorem ofStmt {emits : Bool → Bool} {ends : Nat} {balance : Bool → Balance}
    (hplace : e.bare.isPlace = false) (hb : ∀ stored, (balance stored).Settled single) :
    Settled single (.ofStmt e emits ends balance) := by
  have hleft : (Account.ofStmt e emits ends balance).value.left = 0 := by
    change (if _ then _ else _ : Residue).left = 0
    split <;> rfl
  refine ⟨fun _ => hleft, fun _ _ => hleft, fun hp => (nomatch hplace.symm.trans hp),
    fun _ => ⟨hleft, fun _ => hleft⟩, fun use => ?_⟩
  cases use with
  | dropped => exact hb false
  | stored => exact hb true
  | taken => exact hb _
  | placed => exact hb _

theorem plainStmt (he : e.bare.isPlace = false) (hb : b.Settled single) :
    Settled single (.plainStmt e b) := ofStmt he fun _ => hb

theorem scope (h : ∀ a ∈ part, Settled single a) (stored : Bool) :
    (scope part stored).Settled single := by
  cases part with
  | none => exact .zero
  | some a => exact (h a rfl).balance _

theorem takenOption (h : ∀ a ∈ part, Settled single a) : (takenOption part).Settled single := by
  cases part with
  | none => exact .zero
  | some a => exact (h a rfl).balance _

theorem takenAll {as : List Account} (h : ∀ a ∈ as, Settled single a) :
    (takenAll as).Settled single := by
  induction as with
  | nil => exact .zero
  | cons a rest ih =>
    rw [forall_mem_cons] at h
    exact (h.1.balance .taken).add (ih h.2)

theorem leaf (e : Expr) : Settled single (.leaf e) :=
  ⟨fun _ => rfl, fun _ _ => rfl, fun _ _ _ => rfl, fun _ => ⟨rfl, fun _ => rfl⟩, fun _ => .zero⟩

/-- Only an enum constructor loses its receiver. -/
theorem field {ref : MemberRef} {receiver : Option Account}
    (href : receiver.isSome = true → ref.access ≠ .enumCtor) (h : ∀ a ∈ receiver, Settled single a)
    : Settled single (.field loc type ref receiver) := by
  cases receiver with
  | none =>
    exact ⟨fun _ => rfl, fun _ _ => rfl, fun _ _ _ => rfl, fun _ => ⟨rfl, fun _ => rfl⟩,
      fun _ => .zero⟩
  | some r =>
    have hr := h r rfl
    -- without an enum constructor only purity can promise that nothing stays
    have hmember {kept : Residue} (hk : kept.Settled) :
        ({ kept with stable := decide (ref.access = .enumCtor) } : Residue).Settled := by
      rintro (hp | hs)
      · exact hk (.inl hp)
      · exact absurd (of_decide_eq_true hs) (href rfl)
    have htarget (how : Spill) : (fieldTarget ref (some r) how).Settled :=
      hmember (settled_spill hr.value _)
    have hplace (how : Spill) (hhow : how ≠ .none) :
        (fieldTarget ref (some r) how).left = 0 := left_spill_moves hr.value hhow
    have hpure (hp : r.source.isPure = true) (how : Spill) :
        (fieldTarget ref (some r) how).left = 0 :=
      left_spill_of_left (hr.pure hp).1 _
    dsimp only [Account.field]
    by_cases hf : ref.isForwarded = true
    · rw [if_pos hf]
      refine ⟨fun _ => rfl, htarget, fun _ => hplace, fun hp => ⟨rfl, hpure hp⟩, fun use => ?_⟩
      have hkept : (⟨0, (r.value.spill (!r.value.stable)).left⟩ : Balance).Settled single :=
        ⟨hplace .unstable nofun, fun _ => rfl⟩
      by_cases huse : use = .placed
      · dsimp only
        rw [if_pos huse]
        exact hr.balance _
      · dsimp only
        rw [if_neg huse]
        exact (hr.balance .taken).add hkept
    · rw [if_neg hf]
      exact ⟨hmember (settled_spill hr.value _), htarget, fun _ => hplace,
        fun hp => ⟨left_spill_of_left (hr.pure hp).1 _, hpure hp⟩, fun _ => hr.balance _⟩

theorem index {base position : Account} (hb : Settled single base) (hp : Settled single position) :
    Settled single (.index loc type base position) := by
  have hfirst := settled_before hb.value position.value
  have hsecond : ({ position.value with emits := false } : Residue).Settled := hp.value
  have hparts {b p : Residue} (hb : b.Settled) (hp : p.Settled) :
      (⟨b.emits || p.emits, b.pure && p.pure, false, b.left + p.left⟩ : Residue).Settled := by
    rintro (h | h)
    · have h := (Bool.and_eq_true _ _).mp h
      exact congrArg₂ (· + ·) (hb (.inl h.1)) (hp (.inl h.2))
    · cases h
  refine ⟨hparts hfirst hsecond, fun _ => hparts (settled_spill hfirst _) (settled_spill hsecond _),
    fun _ how hhow => congrArg₂ (· + ·) (left_spill_moves hfirst hhow)
      (left_spill_moves hsecond hhow), fun h => ?_,
    fun _ => (hb.balance .taken).add (hp.balance .taken)⟩
  have h := (Bool.and_eq_true _ _).mp h
  have hbase : (base.value.before position.value).left = 0 :=
    left_spill_of_left (hb.pure h.1).1 _
  have hposition : ({ position.value with emits := false } : Residue).left = 0 := (hp.pure h.2).1
  exact ⟨congrArg₂ (· + ·) hbase hposition, fun _ => congrArg₂ (· + ·)
    (left_spill_of_left hbase _) (left_spill_of_left hposition _)⟩

theorem wrap (hbare : e.bare = inner.source.bare) (hpure : e.isPure = inner.source.isPure)
    (h : Settled single inner) :
    Settled single (.wrap e inner) :=
  ⟨h.value, h.target, fun hp => h.place (hbare ▸ hp), fun he => h.pure (hpure ▸ he), h.balance⟩

/-- It counts as pure only without an effect of its own. -/
theorem around {pure : Bool} (hplace : e.bare.isPlace = false) (hown : pure = true → own = 0)
    (hpure : e.isPure = true → pure = true ∧ inner.source.isPure = true) (h : Settled single inner)
    : Settled single (.around e own pure inner) := by
  refine ofValue hplace ?_ (fun he => ?_) (h.balance .taken)
  · rintro (hp | hs)
    · have hp := (Bool.and_eq_true _ _).mp hp
      exact congrArg₂ (· + ·) (hown hp.1) (h.value (.inl hp.2))
    · cases hs
  · obtain ⟨hp, hi⟩ := hpure he
    exact congrArg₂ (· + ·) (hown hp) (h.pure hi).1

theorem listed {parts : List Account} (hplace : e.bare.isPlace = false) (hpure : e.isPure = false)
    (h : ∀ a ∈ parts, Settled single a) :
    Settled single (.listed e own parts) := by
  refine ofValue hplace ?_ (fun he => nomatch hpure.symm.trans he) (takenAll h)
  rintro (hp | hs)
  · cases hp
  · cases hs

/-! ## Operators -/

/-- Only a pure right side without statements leaves the place alone. -/
theorem exposes_of_assignSpill {lhs rhs : Expr} (hspill : Lowering.assignSpill op rhs = .none)
    (h : (Expr.binary loc type op lhs rhs).exposes = false) : lhs.isPure = true := by
  unfold Lowering.assignSpill at hspill
  split at hspill
  · cases hspill
  · rename_i hhoists
    split at hspill
    · cases hspill
    · rename_i hplain
      simp only [ne_eq, Bool.or_eq_true, decide_eq_true_eq, Bool.not_eq_true', not_or, not_not,
        Bool.not_eq_false] at hplain
      obtain ⟨rfl, hpure⟩ := hplain
      simpa [exposes, hhoists, hpure] using h

/-- A place that is not exposed is written with no effect left. -/
theorem assignment (hop : op.isMutating = true) (hplace : lhs.source.bare.isPlace = true)
    (hexposed : single → (Expr.binary loc type op lhs.source rhs.source).exposes = false)
    (hl : Settled single lhs) (hr : Settled single rhs) :
    Settled single (.assignment loc type op lhs rhs) := by
  have hleft (hs : single) : (lhs.target (Lowering.assignSpill op rhs.source)).left = 0 := by
    by_cases hspill : Lowering.assignSpill op rhs.source = .none
    · exact (hl.pure (exposes_of_assignSpill hspill (hexposed hs))).2 _
    · exact hl.place hplace _ hspill
  have hunstable : (lhs.target .unstable).left = 0 := hl.place hplace _ Spill.noConfusion
  have himpure : (Expr.binary loc type op lhs.source rhs.source).isPure = true →
      ∀ r : Residue, r.left = 0 := by
    simp [isPure, hop]
  unfold Account.assignment
  refine ⟨hl.target _, fun _ => hl.target _, fun h => absurd h Bool.false_ne_true,
    fun hp => ⟨himpure hp _, fun _ => himpure hp _⟩, fun use => ?_⟩
  have hparts (use : Use) : (lhs.balance .placed + rhs.balance use).Settled single :=
    (hl.balance .placed).add (hr.balance use)
  by_cases heach : (op = .assign && rhs.source.bare.isBlockLike : Bool) = true
  · have hcopies (copies : Nat) : (Balance.ofCopies copies (lhs.target .unstable).left).Settled single :=
      .ofCopies (.inr hunstable) fun _ => hunstable
    simp only [heach, if_true]
    split
    · exact (hparts _).add (hcopies _)
    · exact (hparts _).add (hcopies _)
  · simp only [heach]
    split
    · exact (hparts _).add (.ofCopies (.inl Nat.one_pos) hleft)
    · exact (hparts _).add (.ofCopies (.inl Nat.two_pos) hleft)

/-- The right side is written once, in its branch. -/
theorem branching (hl : Settled single lhs) (hr : Settled single rhs) :
    Settled single (.branching (.binary loc type op lhs.source rhs.source) lhs rhs) :=
  ofValue rfl (fun _ => rfl) (fun _ => rfl) ((hl.balance .taken).add (hr.balance .stored))

theorem operation (hl : Settled single lhs) (hr : Settled single rhs) :
    Settled single (.operation (.binary loc type op lhs.source rhs.source) lhs rhs) := by
  refine ofValue rfl ?_ (fun he => ?_) ((hl.balance .taken).add (hr.balance .taken))
  · rintro (hp | hs)
    · have hp := (Bool.and_eq_true _ _).mp hp
      exact congrArg₂ (· + ·) (settled_before hl.value _ (.inl hp.1)) (hr.value (.inl hp.2))
    · cases hs
  · simp only [isPure, Bool.and_eq_true] at he
    exact congrArg₂ (· + ·) (left_spill_of_left (hl.pure he.1.2).1 _) (hr.pure he.2).1

theorem binary (hplace : op.isAssignment = true → lhs.source.bare.isPlace = true)
    (hexposed : single → (Expr.binary loc type op lhs.source rhs.source).exposes = false)
    (hl : Settled single lhs) (hr : Settled single rhs) :
    Settled single (.binary loc type op lhs rhs) := by
  unfold Account.binary
  split
  · exact assignment rfl (hplace rfl) hexposed hl hr
  · exact assignment rfl (hplace rfl) hexposed hl hr
  · exact branching hl hr
  · split
    · exact branching hl hr
    · exact operation hl hr
  · split
    · exact branching hl hr
    · exact operation hl hr
  · exact operation hl hr

theorem unary {op : UnaryOp} {isPost : Bool} {operand : Account}
    (hplace : op.isStep = true → operand.source.bare.isPlace = true) (h : Settled single operand) :
    Settled single (.unary loc type op isPost operand) := by
  unfold Account.unary
  by_cases hop : op.isStep = true
  · rw [if_pos hop]
    have hleft : (operand.target .impure).left = 0 := h.place (hplace hop) _ nofun
    have hvalue : (if isPost then .temp else { operand.target .impure with emits := true } :
        Residue).left = 0 := by
      split
      · rfl
      · exact hleft
    refine ⟨fun _ => hvalue, fun _ _ => hvalue, nofun,
      fun _ => ⟨hvalue, fun _ => hvalue⟩, fun use => ?_⟩
    dsimp only
    split
    · exact h.balance .placed
    · exact (h.balance .placed).add (.ofCopies (.inl Nat.two_pos) fun _ => hleft)
  · rw [if_neg hop]
    refine around rfl (fun _ => rfl) (fun he => ⟨rfl, ?_⟩) h
    simp only [isPure, Bool.and_eq_true] at he
    exact he.2

theorem varDecl {var : Var} {init : Option Account} (h : ∀ a ∈ init, Settled single a) :
    Settled single (.varDecl loc var init) := by
  cases init with
  | none => exact plainStmt rfl .zero
  | some a =>
    refine plainStmt rfl ?_
    dsimp only
    split
    · exact (h a rfl).balance _
    · exact (h a rfl).balance _

theorem sequence : ∀ {as : List Account}, (∀ a ∈ as, Settled single a) →
    (sequenceBalance stored as).Settled single
  | [], _ => .zero
  | [_], h => (forall_mem_singleton.1 h).balance _
  | _ :: _ :: _, h => by
    rw [forall_mem_cons] at h
    exact (h.1.balance .dropped).add (sequence h.2)

theorem block {exprs : List Account} (h : ∀ a ∈ exprs, Settled single a) :
    Settled single (.block loc type exprs) := by
  have hnode : Settled single (.ofStmt (.block loc type (exprs.map source))
      (sequenceEmits · exprs) (sequenceEnds exprs)
      (sequenceBalance · exprs)) := ofStmt rfl fun _ => sequence h
  unfold Account.block
  split
  · exact ⟨fun _ => rfl, fun _ _ => rfl, nofun, nofun, hnode.balance⟩
  · exact hnode

theorem ite {cond : Account} {onTrue onFalse : Option Account} (hc : Settled single cond)
    (ht : ∀ a ∈ onTrue, Settled single a) (hf : ∀ a ∈ onFalse, Settled single a) :
    Settled single (.ite loc type cond onTrue onFalse) :=
  ofStmt rfl fun stored => (hc.balance .taken).add ((scope ht stored).add (scope hf stored))

theorem handlers {hs : List (Handler Account)} (h : ∀ c ∈ hs, ∀ a ∈ c.body, Settled single a) :
    (handlerBalance stored hs).Settled single := by
  induction hs with
  | nil => exact .zero
  | cons c rest ih =>
    rw [forall_mem_cons] at h
    exact (scope h.1 stored).add (ih h.2)

theorem tryCatch {body : Option Account} {catches : List (Handler Account)}
    (hb : ∀ a ∈ body, Settled single a) (hc : ∀ c ∈ catches, ∀ a ∈ c.body, Settled single a) :
    Settled single (.tryCatch loc type body catches) :=
  ofStmt rfl fun stored => (scope hb stored).add (handlers hc)

theorem cases (h : ∀ c ∈ cs, (∀ a ∈ c.values, Settled single a) ∧ ∀ a ∈ c.body, Settled single a) :
    (caseBalance stored cs).Settled single := by
  induction cs with
  | nil => exact .zero
  | cons c rest ih =>
    rw [forall_mem_cons] at h
    exact ((takenAll h.1.1).add (scope h.1.2 stored)).add (ih h.2)

theorem switch {subject : Account} {default : Option Account} (hs : Settled single subject)
    (hc : ∀ c ∈ cs, (∀ a ∈ c.values, Settled single a) ∧ ∀ a ∈ c.body, Settled single a)
    (hd : ∀ a ∈ default, Settled single a) :
    Settled single (.switch loc type subject cs default) :=
  ofStmt rfl fun stored => (hs.balance .taken).add ((cases hc).add (scope hd stored))

end Settled

/-! ## Tame trees -/

theorem source_account (x : Site) (e : Expr) : (account x e).source = e := by
  have h := ((Audited.compositional x).lower e).source
  rw [source_lower] at h
  exact h.symm

section Parts

variable {P : Account → Prop}

/-- What holds of all accounts holds of those of a list. -/
theorem forall_accountList {es : List Expr} (h : ∀ e ∈ es, P (account x e)) :
    ∀ a ∈ accountList x es, P a := by
  induction es with
  | nil => exact nofun
  | cons e rest ih =>
    rw [forall_mem_cons] at h
    exact forall_mem_cons.2 ⟨h.1, ih h.2⟩

theorem forall_accountOption {part : Option Expr} (h : ∀ e ∈ part.toList, P (account x e)) :
    ∀ a ∈ accountOption x part, P a := by
  cases part with
  | none => exact nofun
  | some e => exact forall_mem_some (h e (.head _))

theorem forall_accountFields {fields : List (FieldInit Expr)}
    (h : ∀ e ∈ fields.map FieldInit.value, P (account x e)) : ∀ a ∈ accountFields x fields, P a := by
  induction fields with
  | nil => exact nofun
  | cons f rest ih =>
    rw [map_cons, forall_mem_cons] at h
    exact forall_mem_cons.2 ⟨h.1, ih h.2⟩

theorem forall_accountCases {cases : List (Case Expr)}
    (h : ∀ e ∈ cases.flatMap fun c => c.values ++ c.body.toList, P (account x e)) :
    ∀ c ∈ accountCases x cases, (∀ a ∈ c.values, P a) ∧ ∀ a ∈ c.body, P a := by
  induction cases with
  | nil => exact nofun
  | cons c rest ih =>
    rw [flatMap_cons, forall_mem_append, forall_mem_append] at h
    exact forall_mem_cons.2 ⟨⟨forall_accountList h.1.1, forall_accountOption h.1.2⟩, ih h.2⟩

theorem forall_accountHandlers {handlers : List (Handler Expr)}
    (h : ∀ e ∈ handlers.filterMap Handler.body, P (account x e)) :
    ∀ c ∈ accountHandlers x handlers, ∀ a ∈ c.body, P a := by
  rw [filterMap_eq_flatMap_toList] at h
  induction handlers with
  | nil => exact nofun
  | cons c rest ih =>
    rw [flatMap_cons, forall_mem_append] at h
    exact forall_mem_cons.2 ⟨forall_accountOption h.1, ih h.2⟩

end Parts

/-- A tame tree and its parts have settled accounts. -/
theorem settled (x : Site) (e : Expr) (h : Tame single e) :
    Settled single (account x e) ∧ ∀ c ∈ e.children, Settled single (account x c) := by
  induction e using induction_on_children with
  | step e ih =>
  have below (c) (hc : c ∈ e.children) : Settled single (account x c) := (ih c hc (h.child hc)).1
  refine ⟨?_, below⟩
  have hnode := ((search_eq_false e).1 h.1).1
  cases e with
  | omitted | const | «local» | typeRef | ident => exact .leaf _
  | brk | cont => exact .plainStmt rfl .zero
  | field loc type ref receiver =>
    refine .field (fun hr => ?_) (forall_accountOption below)
    cases receiver with
    | none => cases hr
    | some => simpa [misplaces] using hnode
  | index => exact .index (below _ (.head _)) (below _ (.tail _ (.head _)))
  | paren | annot =>
    refine .wrap ?_ ?_ (below _ (.head _))
    · rw [source_account, bare]
    · rw [source_account, isPure]
  | object => exact .listed rfl rfl (forall_accountFields below)
  | array | new => exact .listed rfl rfl (forall_accountList below)
  | call loc type callee =>
    have hargs := forall_accountList fun a ha => below a (.tail _ ha)
    have hcallee := ih callee (.head _) (h.child (.head _))
    cases callee with
    | field =>
      refine .listed rfl rfl (forall_mem_append.2 ⟨fun a ha => ?_, hargs⟩)
      exact forall_accountOption hcallee.2 a (Option.mem_toList.1 ha)
    | _ => exact .listed rfl rfl (forall_mem_cons.2 ⟨hcallee.1, hargs⟩)
  | binary =>
    refine .binary (fun hop => ?_) (fun hs => ?_) (below _ (.head _)) (below _ (.tail _ (.head _)))
    · rw [source_account, isPlace_of_stores hnode hop]
    · rw [source_account, source_account]
      exact ((search_eq_false _).1 (h.2 hs)).1
  | unary =>
    refine .unary (fun hop => ?_) (below _ (.head _))
    rw [source_account, isPlace_of_stores hnode hop]
  | function => exact .ofValue rfl (fun _ => rfl) (fun _ => rfl) .zero
  | varDecl => exact .varDecl (forall_accountOption below)
  | block => exact .block (forall_accountList below)
  | forIn | loop =>
    exact .plainStmt rfl (((below _ (.head _)).balance .taken).add
      (Settled.scope (forall_accountOption fun c hc => below c (.tail _ hc)) false))
  | ite =>
    obtain ⟨hcond, hparts⟩ := forall_mem_cons.1 below
    obtain ⟨htrue, hfalse⟩ := forall_mem_append.1 hparts
    exact .ite hcond (forall_accountOption htrue) (forall_accountOption hfalse)
  | switch =>
    obtain ⟨hsubject, hparts⟩ := forall_mem_cons.1 below
    obtain ⟨hcases, hdefault⟩ := forall_mem_append.1 hparts
    exact .switch hsubject (forall_accountCases hcases) (forall_accountOption hdefault)
  | ret => exact .plainStmt rfl (Settled.takenOption (forall_accountOption below))
  | throw => exact .plainStmt rfl ((below _ (.head _)).balance .taken)
  | cast loc type checked inner =>
    refine .around rfl (fun hc => ?_) (fun he => ?_) (below _ (.head _))
    · rw [Option.isNone_iff_eq_none.1 hc]
      rfl
    · cases checked with
      | none => exact ⟨rfl, (congrArg isPure (source_account x inner)).trans he⟩
      | some => cases he
  | enumParam | enumIndex =>
    exact .around rfl (fun _ => rfl)
      (fun he => ⟨rfl, (congrArg isPure (source_account x _)).trans he⟩) (below _ (.head _))
  | tryCatch =>
    obtain ⟨hbody, hhandlers⟩ := forall_mem_append.1 below
    exact .tryCatch (forall_accountOption hbody) (forall_accountHandlers hhandlers)

def cloned (x : Site) (e : Expr) : Nat := ((account x e).balance .dropped).clones

def unwritten (x : Site) (e : Expr) : Nat := ((account x e).balance .dropped).lost

/-- What is written and lost is what the tree has and what is cloned. -/
theorem gives_normalize_occurrences (e : Expr) {s : TempSupply} (hs : Reserved s) (x : Site) :
    Gives (normalize e none) s fun r _ =>
      r.occurrences x + unwritten x e = e.occurrences x + cloned x e := by
  have hbody := ((Audited.compositional x).lower e).body none s hs
  rw [source_lower] at hbody
  refine hbody.bind fun stmts _ hstmts => gives_pure ?_
  have hbalance : occurrencesList x stmts + unwritten x e =
      e.occurrences x + (account x e).ends * 0 + cloned x e := hstmts.2
  change occurrencesList x stmts + unwritten x e = e.occurrences x + cloned x e
  rw [hbalance, Nat.mul_zero, Nat.add_zero]

/-- **Single evaluation.** Normalization writes, for every site, the
effects that the tree has and those that are cloned, less those that are
lost. So it writes every effect exactly once if and only if at each site
as many effects are cloned as are lost. If the tree stores into places
only and no enum constructor has a receiver, nothing is lost; if besides
no assignment of a pure value exposes its place, nothing is cloned
either. -/
theorem effects_once_iff_cloned_eq_unwritten (e : Expr) {s : TempSupply} (hs : Reserved s) :
    Gives (normalize e none) s (fun r _ =>
      (∀ x, r.occurrences x + unwritten x e = e.occurrences x + cloned x e) ∧
      ((∀ x, r.occurrences x = e.occurrences x) ↔ ∀ x, cloned x e = unwritten x e)) ∧
    (Placed e → ∀ x, unwritten x e = 0) ∧
    (Placed e → Unexposed e → ∀ x, cloned x e = 0) := by
  refine ⟨?_, fun hp x => ?_, fun hp hu x => ?_⟩
  · refine (Gives.forall (gives_normalize_occurrences e hs)).mono fun r _ hr => ⟨hr, ?_, ?_⟩
    · intro hsame x
      have hx := hr x
      rw [hsame x] at hx
      omega
    · intro hsame x
      have hx := hr x
      rw [hsame x] at hx
      omega
  · have hlossless : Settled False (account x e) := (settled x e ⟨hp, False.elim⟩).1
    exact (hlossless.balance .dropped).lost
  · have hsettled : Settled True (account x e) := (settled x e ⟨hp, fun _ => hu⟩).1
    exact (hsettled.balance .dropped).clones trivial

/-- In `y = (f().x = g())` the call of `f` is moved into a temporary, since
`g` runs before the member is stored, and each of the calls is written
once. -/
theorem effects_once_moved_place :
    let f : Expr := .call ⟨1, 1, 5⟩ .dynamic (.ident {} .dynamic "f") []
    let g : Expr := .call ⟨1, 1, 11⟩ .int (.ident {} .dynamic "g") []
    let place : Expr := .field {} .int ⟨.inst, "x", ⟨[], ""⟩, false, none⟩ (some f)
    let e : Expr := .binary {} .int .assign (.local {} ⟨1, "y", .int⟩)
      (.binary {} .int .assign place g)
    Placed e ∧ Unexposed e ∧ ∃ r s', normalize e none TempSupply.all = .ok r s' ∧ s'.count = 1 ∧
      ∀ x, r.occurrences x = e.occurrences x := by
  intro f g place e
  have hplaced : Placed e := rfl
  have hunexposed : Unexposed e := rfl
  obtain ⟨hgives, hlost, hcloned⟩ := effects_once_iff_cloned_eq_unwritten e reserved_all
  refine ⟨hplaced, hunexposed, _, _, rfl, rfl, ?_⟩
  have hsame : ∀ x, cloned x e = unwritten x e := fun x =>
    (hcloned hplaced hunexposed x).trans (hlost hplaced x).symm
  exact (hgives.of_ok rfl).2.2 hsame

/-- In `y = (f().x = 1)` the call of `f` is written twice: the place is
stored into as it is, and then read as the value of the assignment. -/
theorem effects_twice_exposed_place :
    let f : Expr := .call ⟨1, 1, 5⟩ .dynamic (.ident {} .dynamic "f") []
    let place : Expr := .field {} .int ⟨.inst, "x", ⟨[], ""⟩, false, none⟩ (some f)
    let e : Expr := .binary {} .int .assign (.local {} ⟨1, "y", .int⟩)
      (.binary {} .int .assign place (.const {} .int (.int 1)))
    Placed e ∧ ∃ r s', normalize e none TempSupply.all = .ok r s' ∧
      e.occurrences ⟨.call, ⟨1, 1, 5⟩⟩ = 1 ∧ r.occurrences ⟨.call, ⟨1, 1, 5⟩⟩ = 2 := by
  intro f place e
  exact ⟨rfl, _, _, rfl, rfl, rfl⟩

end Normalize

end LuaBackend
