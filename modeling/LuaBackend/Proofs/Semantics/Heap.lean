import LuaBackend.Proofs.Semantics.Eval

/-!
# Machines whose world is a heap

Every member of an object and every element of an array has a cell, and a
store changes one cell and no other. Nothing is said about which cells
members and elements have. A slot is a cell or a local. A target names a
slot, through the values its parts have at that moment, so a store can
change which slot it names. It names the same one if its parts read
another slot than the one stored into (`Heap.named_update`).
-/

namespace LuaBackend

open Exec Bool

/-- The world as cells. What an enum value holds does not change. -/
structure Heap (M : Machine) where
  Cell : Type
  member : MemberRef → Option M.Value → Cell
  element : M.Value → M.Value → Cell
  get : M.World → Cell → M.Value
  put : M.World → Cell → M.Value → M.World
  member_eq : ∀ ref r w, M.member ref r w = get w (member ref r)
  element_eq : ∀ b p w, M.element b p w = get w (element b p)
  setMember_eq : ∀ ref r v w, M.setMember ref r v w = put w (member ref r) v
  setElement_eq : ∀ b p v w, M.setElement b p v w = put w (element b p) v
  get_put : ∀ w c v, get (put w c v) c = v
  get_put_of_ne : ∀ w c v d, d ≠ c → get (put w c v) d = get w d
  enumParam_put : ∀ ctor slot a w c v,
    M.enumParam ctor slot a (put w c v) = M.enumParam ctor slot a w
  enumIndex_put : ∀ a w c v, M.enumIndex a (put w c v) = M.enumIndex a w

namespace Expr

def isSlot : Expr → Bool
  | .local .. | index .. => true
  | field _ _ ref _ => ref.access ≠ .enumCtor
  | _ => false

end Expr

namespace Heap

variable {M : Machine} (H : Heap M)
variable {p : Place M.Value} {t : Expr} {a : M.Value}

/-- Where a program keeps a value. -/
inductive Slot where
  | local (y : UInt32)
  | cell (c : H.Cell)

variable {H}

def holds (σ : State M) : H.Slot → M.Value
  | .local y => σ.locals y
  | .cell c => H.get σ.world c

def update (σ : State M) (v : M.Value) : H.Slot → State M
  | .local y => σ.set y v
  | .cell c => { σ with world := H.put σ.world c v }

theorem holds_update_self (σ : State M) (v : M.Value) (s : H.Slot) :
    holds (update σ v s) s = v := by
  cases s with
  | «local» => exact if_pos rfl
  | cell => exact H.get_put _ _ _

theorem holds_update_of_ne {s d : H.Slot} (h : d ≠ s) : holds (update σ v s) d = holds σ d := by
  cases s with
  | «local» =>
    cases d with
    | «local» => exact if_neg fun hz => h (congrArg _ hz)
    | cell => rfl
  | cell =>
    cases d with
    | «local» => rfl
    | cell => exact H.get_put_of_ne _ _ _ _ fun hd => h (congrArg _ hd)

/-- A slot then holds the value if it was stored into, or has held it before. -/
theorem holds_update_eq_iff {s d : H.Slot} :
    holds (update σ v s) d = v ↔ d = s ∨ holds σ d = v := by
  by_cases h : d = s
  · rw [h]
    exact iff_of_true (holds_update_self σ v s) (.inl rfl)
  · rw [holds_update_of_ne h, or_iff_right h]

variable (H)

def slot : Place M.Value → Option H.Slot
  | .local y => some (.local y)
  | .member ref receiver => some (.cell (H.member ref receiver))
  | .element base position => some (.cell (H.element base position))
  | .nowhere => none

def named (rounds : Nat) (t : Expr) (σ : State M) : Option H.Slot :=
  match evalPlace M rounds t σ with
  | some (.ok p, _) => H.slot p
  | _ => none

variable {H}

theorem load_eq {s : H.Slot} (h : H.slot p = some s) (σ : State M) :
    load p σ = some (.ok (holds σ s), σ) := by
  cases p with
  | «local» =>
    cases h
    rfl
  | member =>
    cases h
    rw [Exec.load, Exec.read, H.member_eq]
    rfl
  | element =>
    cases h
    rw [load, Exec.read, H.element_eq]
    rfl
  | nowhere => cases h

theorem store_eq {s : H.Slot} (h : H.slot p = some s) (v : M.Value) (σ : State M) :
    store p v σ = some (.ok (), update σ v s) := by
  cases p with
  | «local» =>
    cases h
    rfl
  | member =>
    cases h
    rw [Exec.store, Exec.modify, H.setMember_eq]
    rfl
  | element =>
    cases h
    rw [store, Exec.modify, H.setElement_eq]
    rfl
  | nowhere => cases h

theorem named_of_place {τ : State M} (h : evalPlace M rounds t σ = some (.ok p, τ)) :
    H.named rounds t σ = H.slot p := by
  rw [named, h]

/-- Evaluating a pure target changes nothing, and its value is what the slot
holds. -/
theorem exists_named (rounds : Nat) (σ : State M) : ∀ t : Expr, t.bare.isSlot = true →
    t.isPure = true → ∃ p s, evalPlace M rounds t σ = some (.ok p, σ) ∧ H.slot p = some s ∧
      eval M rounds t σ = some (.ok (holds σ s), σ)
  | .local _ var, _, _ => ⟨.local var.id, .local var.id, rfl, rfl, rfl⟩
  | .field _ _ ref none, h, _ => by
    refine ⟨.member ref none, _, rfl, rfl, ?_⟩
    rw [eval, if_neg (of_decide_eq_true h)]
    exact load_eq (H := H) (p := .member ref none) rfl σ
  | .field _ _ ref (some r), h, hp => by
    obtain ⟨a, ha⟩ := @eval_of_isPure M rounds σ r hp
    have hreceiver : evalReceiver M rounds (some r) σ = some (.ok (some a), σ) :=
      bind_of_ok ha
    refine ⟨.member ref (some a), _, bind_of_ok hreceiver, rfl, ?_⟩
    rw [eval, if_neg (of_decide_eq_true h), bind_of_ok hreceiver]
    exact load_eq (H := H) (p := .member ref (some a)) rfl σ
  | .index _ _ base position, _, hp => by
    obtain ⟨hb, hq⟩ := and_eq_true_iff.1 hp
    obtain ⟨b, hb⟩ := @eval_of_isPure M rounds σ base hb
    obtain ⟨q, hq⟩ := @eval_of_isPure M rounds σ position hq
    refine ⟨.element b q, _, (bind_of_ok hb).trans (bind_of_ok hq), rfl, ?_⟩
    rw [eval, bind_of_ok hb, bind_of_ok hq]
    exact load_eq (H := H) (p := .element b q) rfl σ
  | .paren _ _ inner, h, hp => exists_named rounds σ inner h hp
  | .annot _ _ _ inner, h, hp => exists_named rounds σ inner h hp

/-- A pure value is stored into the slot that the target names. -/
theorem exists_stored (rounds : Nat) {op : BinaryOp} {rhs : Expr} (σ : State M)
    (hop : op.isAssignment = true) (ht : t.bare.isSlot = true) (hp : t.isPure = true)
    (hr : rhs.isPure = true) : ∃ s v, H.named rounds t σ = some s ∧
      Exec.binary op (eval M rounds t) (evalPlace M rounds t) (eval M rounds rhs) σ =
        some (.ok v, update σ v s) := by
  obtain ⟨p, s, hplace, hs, -⟩ := exists_named (H := H) rounds σ t ht hp
  obtain ⟨a, ha⟩ := @eval_of_isPure M rounds σ rhs hr
  have hnamed := (named_of_place hplace).trans hs
  cases op with
  | assign =>
    refine ⟨s, a, hnamed, ?_⟩
    rw [Exec.binary, bind_of_ok hplace, bind_of_ok ha, bind_of_ok (store_eq hs a σ)]
    rfl
  | compound op =>
    refine ⟨s, M.binary op (holds σ s) a, hnamed, ?_⟩
    rw [Exec.binary, bind_of_ok hplace, bind_of_ok (load_eq hs σ), bind_of_ok ha,
      bind_of_ok (store_eq hs _ σ)]
    rfl
  | _ => exact absurd hop false_ne_true

/-! ## What is read -/

variable (H)

/-- Evaluating a pure node may read the slot. -/
inductive Reads (rounds : Nat) (σ : State M) : Expr → H.Slot → Prop
  | localVar {loc var} : Reads rounds σ (.local loc var) (.local var.id)
  | static {loc type ref} : Reads rounds σ (.field loc type ref none) (.cell (H.member ref none))
  | member {loc type ref r a} : eval M rounds r σ = some (.ok a, σ) →
      Reads rounds σ (.field loc type ref (some r)) (.cell (H.member ref (some a)))
  | receiver {loc type ref r s} : Reads rounds σ r s →
      Reads rounds σ (.field loc type ref (some r)) s
  | element {loc type base position b p} : eval M rounds base σ = some (.ok b, σ) →
      eval M rounds position σ = some (.ok p, σ) →
      Reads rounds σ (.index loc type base position) (.cell (H.element b p))
  | base {loc type base position s} : Reads rounds σ base s →
      Reads rounds σ (.index loc type base position) s
  | position {loc type base position s} : Reads rounds σ position s →
      Reads rounds σ (.index loc type base position) s
  | paren {loc type inner s} : Reads rounds σ inner s → Reads rounds σ (.paren loc type inner) s
  | annot {loc type name inner s} : Reads rounds σ inner s →
      Reads rounds σ (.annot loc type name inner) s
  | cast {loc type checked inner s} : Reads rounds σ inner s →
      Reads rounds σ (.cast loc type checked inner) s
  | enumParam {loc type value ctor slot s} : Reads rounds σ value s →
      Reads rounds σ (.enumParam loc type value ctor slot) s
  | enumIndex {loc value s} : Reads rounds σ value s → Reads rounds σ (.enumIndex loc value) s
  | left {loc type op lhs rhs s} : Reads rounds σ lhs s →
      Reads rounds σ (.binary loc type op lhs rhs) s
  | right {loc type op lhs rhs s} : Reads rounds σ rhs s →
      Reads rounds σ (.binary loc type op lhs rhs) s
  | operand {loc type op isPost operand s} : Reads rounds σ operand s →
      Reads rounds σ (.unary loc type op isPost operand) s

variable {H}

def SameAt {α : Type} (x : Exec M α) (σ τ : State M) : Prop :=
  ∃ a, x σ = some (.ok a, σ) ∧ x τ = some (.ok a, τ)

namespace SameAt

variable {α β : Type} {σ τ : State M}

theorem pure (a : α) : SameAt (pure a) σ τ := ⟨a, rfl, rfl⟩

/-- The second part sees the value of the first. -/
theorem bind {x : Exec M α} {f : α → Exec M β} (hx : SameAt x σ τ)
    (hf : ∀ a, x σ = some (.ok a, σ) → SameAt (f a) σ τ) : SameAt (x >>= f) σ τ := by
  obtain ⟨a, hσ, hτ⟩ := hx
  obtain ⟨b, hb, hb'⟩ := hf a hσ
  exact ⟨b, (bind_of_ok hσ).trans hb, (bind_of_ok hτ).trans hb'⟩

theorem binary {op : BinaryOp} {lhs rhs : Exec M M.Value} {place : Exec M (Place M.Value)}
    (hop : op.isMutating = false) (hl : SameAt lhs σ τ) (hr : SameAt rhs σ τ) :
    SameAt (Exec.binary op lhs place rhs) σ τ := by
  by_cases hand : op = .and
  · rw [hand, Exec.binary]
    refine hl.bind fun a _ => ?_
    split
    · exact hr
    · exact pure a
  · by_cases hor : op = .or
    · rw [hor, Exec.binary]
      refine hl.bind fun a _ => ?_
      split
      · exact pure a
      · exact hr
    · rw [Exec.binary_strict hop hand hor]
      exact hl.bind fun a _ => hr.bind fun b _ => pure _

theorem read {f : M.World → M.Value} (h : f τ.world = f σ.world) : SameAt (Exec.read f) σ τ := by
  refine ⟨f σ.world, rfl, ?_⟩
  rw [Exec.read, h]

end SameAt

theorem enumParam_update {s : H.Slot} {ctor : String} {i : UInt32} :
    M.enumParam ctor i a (update σ v s).world = M.enumParam ctor i a σ.world := by
  cases s with
  | «local» => rfl
  | cell => exact H.enumParam_put ..

theorem enumIndex_update {s : H.Slot} :
    M.enumIndex a (update σ v s).world = M.enumIndex a σ.world := by
  cases s with
  | «local» => rfl
  | cell => exact H.enumIndex_put ..

/-- Another slot than the changed one holds the same. -/
theorem sameAt_load {s d : H.Slot} (hp : H.slot p = some d) (h : d ≠ s) :
    SameAt (load p) σ (update σ v s) :=
  ⟨holds σ d, load_eq hp σ, holds_update_of_ne (v := v) h ▸ load_eq hp _⟩

variable {rounds : Nat} {σ : State M} {v : M.Value} {s : H.Slot}

/-- What does not read a slot has the same value once it is changed. -/
theorem sameAt_eval : ∀ e : Expr, e.isPure = true → ¬ H.Reads rounds σ e s →
    SameAt (eval M rounds e) σ (update σ v s)
  | .omitted, _, _ | .const .., _, _ | .typeRef .., _, _ | .function .., _, _ => .pure _
  | .local _ var, _, hr =>
    sameAt_load (p := .local var.id) rfl fun hs => hr (hs ▸ .localVar)
  | .field _ _ ref none, _, hr => by
    rw [eval]
    split
    · exact .pure _
    · exact sameAt_load (p := .member ref none) rfl fun hs => hr (hs ▸ .static)
  | .field _ _ ref (some r), hp, hr => by
    rw [eval]
    split
    · exact .pure _
    · rw [evalReceiver]
      have hreceiver := sameAt_eval r hp fun hs => hr (.receiver hs)
      refine (hreceiver.bind fun _ _ => .pure _).bind fun a ha => ?_
      -- Both states have the same receiver, so the member is in the same cell.
      obtain ⟨b, hb, -⟩ := hreceiver
      cases (bind_of_ok hb).symm.trans ha
      exact sameAt_load (p := .member ref (some b)) rfl fun hs => hr (hs ▸ .member hb)
  | .index _ _ base position, hp, hr => by
    obtain ⟨hb, hq⟩ := and_eq_true_iff.1 hp
    refine (sameAt_eval base hb fun hs => hr (.base hs)).bind fun b hb => ?_
    refine (sameAt_eval position hq fun hs => hr (.position hs)).bind fun q hq => ?_
    exact sameAt_load (p := .element b q) rfl fun hs => hr (hs ▸ .element hb hq)
  | .paren _ _ inner, hp, hr => sameAt_eval inner hp fun hs => hr (.paren hs)
  | .annot _ _ _ inner, hp, hr => sameAt_eval inner hp fun hs => hr (.annot hs)
  | .cast _ _ none inner, hp, hr => sameAt_eval inner hp fun hs => hr (.cast hs)
  | .enumParam _ _ value _ _, hp, hr =>
    (sameAt_eval value hp fun hs => hr (.enumParam hs)).bind fun _ _ => .read enumParam_update
  | .enumIndex _ value, hp, hr =>
    (sameAt_eval value hp fun hs => hr (.enumIndex hs)).bind fun _ _ => .read enumIndex_update
  | .binary _ _ op lhs rhs, hp, hr => by
    simp only [Expr.isPure, and_eq_true, not_eq_true'] at hp
    exact .binary hp.1.1 (sameAt_eval lhs hp.1.2 fun hs => hr (.left hs))
      (sameAt_eval rhs hp.2 fun hs => hr (.right hs))
  | .unary _ _ op _ operand, hp, hr => by
    simp only [Expr.isPure, and_eq_true, not_eq_true'] at hp
    rw [eval, unary, hp.1]
    exact (sameAt_eval operand hp.2 fun hs => hr (.operand hs)).bind fun _ _ => .pure _

/-- A target whose parts do not read the slot is the same place. -/
theorem sameAt_place : ∀ t : Expr, t.bare.isSlot = true → t.isPure = true →
    (∀ p ∈ t.bare.children, ¬ H.Reads rounds σ p s) → SameAt (evalPlace M rounds t) σ (update σ v s)
  | .local .., _, _, _ => .pure _
  | .field _ _ _ none, _, _, _ => .pure _
  | .field _ _ ref (some r), _, hp, hr => by
    exact ((sameAt_eval r hp (hr r (.head _))).bind fun _ _ => .pure _).bind fun _ _ => .pure _
  | .index _ _ base position, _, hp, hr => by
    obtain ⟨hb, hq⟩ := and_eq_true_iff.1 hp
    have hrb := hr base (.head _)
    have hrq := hr position (.tail _ (.head _))
    exact (sameAt_eval base hb hrb).bind fun _ _ =>
      (sameAt_eval position hq hrq).bind fun _ _ => .pure _
  | .paren _ _ inner, ht, hp, hr => sameAt_place inner ht hp hr
  | .annot _ _ _ inner, ht, hp, hr => sameAt_place inner ht hp hr

/-- **A target whose parts do not read the slot that is changed names the
slot that it named before.** -/
theorem named_update : ∀ t : Expr, t.bare.isSlot = true → t.isPure = true →
    (∀ p ∈ t.bare.children, ¬ H.Reads rounds σ p s) →
      H.named rounds t (update σ v s) = H.named rounds t σ := by
  intro t ht hp hr
  obtain ⟨p, hσ, hτ⟩ := sameAt_place t ht hp hr
  rw [named_of_place hσ, named_of_place hτ]

end Heap

end LuaBackend
