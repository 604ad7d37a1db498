import LuaBackend.Proofs.Normalize.Copies
import LuaBackend.Proofs.Normalize.Meaning.Preservation
import LuaBackend.Proofs.Semantics.Heap

/-!
# The value of an assignment

An assignment that is wanted for its value is hoisted, and the value is
read back from its target. The target is evaluated a second time, after
the store, and may then name another slot: where `a[0]` is 0, `a[a[0]] =
5` stores into `a[0]` and reads `a[5]`. What is read back is what was
stored if the target names the same slot after the store, or a slot that
held the value before.
-/

namespace LuaBackend

namespace Expr

open Bool

/-- No method with a Lua name of its own is taken as a value, outside of
function literals. -/
def Unforwarded (e : Expr) : Prop := e.search forwards isFunction = false

instance (e : Expr) : Decidable e.Unforwarded := inferInstanceAs (Decidable (_ = false))

theorem Unforwarded.onlyCallsNatives {e : Expr} (h : e.Unforwarded) : e.OnlyCallsNatives := by
  have hnode {e : Expr} (h : e.Unforwarded) : e.forwards = false := by
    cases e with
    | function => rfl
    | _ => exact ((search_eq_false_of_not_stop _ rfl).1 h).1
  refine ⟨hnode h, ?_⟩
  induction e using induction_on_children with
  | step e ih =>
    by_cases hfun : e.isFunction = true
    · cases e with
      | function => rfl
      | _ => exact absurd hfun false_ne_true
    · rw [not_eq_true] at hfun
      refine (search_eq_false_of_not_stop e hfun).2 ⟨List.any_eq_false.2 fun c hc => ?_,
        fun c hc => ih c hc (((search_eq_false_of_not_stop e hfun).1 h).2 c hc)⟩
      exact eq_false_iff.1 (hnode (search_valuePart h hc))

/-- What is pure needs no statements. -/
theorem hoists_of_isPure : ∀ e : Expr, e.isPure = true → e.Unforwarded → e.hoists = false
  | omitted, _, _ | const .., _, _ | .local .., _, _ | typeRef .., _, _ | function .., _, _ => rfl
  | field _ _ _ none, _, _ => rfl
  | field _ _ ref (some r), hp, hf => by
    obtain ⟨href, hr⟩ := or_eq_false_iff.1 hf
    rw [hoists, hoists_of_isPure r hp hr, show ref.isForwarded = false from href,
      show r.isPure = true from hp]
    exact and_false _
  | index _ _ base position, hp, hf => by
    obtain ⟨hb, hq⟩ := and_eq_true_iff.1 hp
    obtain ⟨hfb, hfq⟩ := or_eq_false_iff.1 (show (base.search _ _ || _) = false from hf)
    exact or_eq_false_iff.2 ⟨hoists_of_isPure base hb hfb, hoists_of_isPure position hq hfq⟩
  | paren _ _ inner, hp, hf | annot _ _ _ inner, hp, hf | cast _ _ none inner, hp, hf
  | enumIndex _ inner, hp, hf => hoists_of_isPure inner hp hf
  | enumParam _ _ value _ _, hp, hf => hoists_of_isPure value hp hf
  | binary _ _ op lhs rhs, hp, hf => by
    simp only [isPure, and_eq_true, not_eq_true'] at hp
    obtain ⟨hfl, hfr⟩ := or_eq_false_iff.1 (show (lhs.search _ _ || _) = false from hf)
    rw [hoists, hp.1.1, hoists_of_isPure lhs hp.1.2 hfl, hoists_of_isPure rhs hp.2 hfr]
    rfl
  | unary _ _ op _ operand, hp, hf => by
    simp only [isPure, and_eq_true, not_eq_true'] at hp
    rw [hoists, hp.1, hoists_of_isPure operand hp.2 hf]
    rfl

def change? : Expr → Option (Expr × BinaryOp × Expr)
  | binary _ _ op lhs rhs => if op.isAssignment then some (lhs, op, rhs) else none
  | unary loc _ op _ operand =>
    if op.isStep then some (operand, .compound op.stepOp, .intLit loc 1) else none
  | _ => none

theorem change?_eq_some {e t v : Expr} {op : BinaryOp} (h : e.change? = some (t, op, v)) :
    (∃ loc type, e = binary loc type op t v ∧ op.isAssignment = true) ∨
      ∃ loc type step isPost, e = unary loc type step isPost t ∧ step.isStep = true ∧
        op = .compound step.stepOp ∧ v = .intLit loc 1 := by
  unfold change? at h
  split at h
  · obtain ⟨hop, ⟨⟩⟩ := Option.ite_none_right_eq_some.1 h
    exact .inl ⟨_, _, rfl, hop⟩
  · obtain ⟨hop, ⟨⟩⟩ := Option.ite_none_right_eq_some.1 h
    exact .inr ⟨_, _, _, _, rfl, hop, rfl, rfl⟩
  · cases h

def isPostfix : Expr → Bool
  | unary _ _ _ isPost _ => isPost
  | _ => false

/-- The same of a node that yields what it stores: an assignment, or a step
in front of its operand. -/
def storing? (e : Expr) : Option (Expr × BinaryOp × Expr) :=
  if e.isPostfix then none else e.change?

theorem storing?_eq_some {e t rhs : Expr} {op : BinaryOp} (h : e.storing? = some (t, op, rhs)) :
    e.isPostfix = false ∧ e.change? = some (t, op, rhs) := by
  unfold storing? at h
  split at h
  · cases h
  · rename_i hpost
    exact ⟨eq_false_iff.2 hpost, h⟩

end Expr

namespace Normalize

open Meaning Lowering

variable {M : Machine} {rounds : Nat}
variable {e t rhs : Expr} {op : BinaryOp}
variable {how : Spill}

/-- Taken without statements, with the value of the node. -/
structure Copied (M : Machine) (rounds : Nat) (e : Expr) (h : Hoisted) : Prop where
  stmts : h.stmts = []
  pure : h.value.isPure = true
  eval : eval M rounds h.value = eval M rounds e

def Copies (M : Machine) (rounds : Nat) (e : Expr) (value : Norm Hoisted) : Prop :=
  ∀ s, Gives value s fun h _ => Copied M rounds e h

theorem Copies.pair {f : Expr} {x y : Norm Hoisted} (hx : Copies M rounds e x)
    (hy : Copies M rounds f y) (s : TempSupply) : Gives (operandPair x y) s fun r _ =>
      r.1 = [] ∧ Copied M rounds e ⟨[], r.2.1⟩ ∧ Copied M rounds f ⟨[], r.2.2⟩ := by
  refine (hx s).bind fun a s₁ ha => (hy s₁).bind fun b s₂ hb => ?_
  rw [hb.stmts]
  exact gives_pure ⟨ha.stmts, ⟨rfl, ha.pure, ha.eval⟩, ⟨rfl, hb.pure, hb.eval⟩⟩

/-- A value that need not move stays where it is. -/
theorem Copied.spill {h : Hoisted} {needed : Bool} (hh : Copied M rounds e h) (hn : needed = false)
    (s : TempSupply) : Gives (Normalize.spill needed h.value) s fun r _ =>
      Copied M rounds e ⟨h.stmts ++ r.stmts, r.value⟩ := by
  refine gives_spill (fun hy _ => absurd (hn.symm.trans hy) Bool.false_ne_true) fun _ => ?_
  exact ⟨(List.append_nil _).trans hh.stmts, hh.pure, hh.eval⟩

/-- **Taking a pure value copies it.** -/
theorem copies_pure (rounds : Nat) (hM : M.KeepsClosures) (e : Expr) (hp : e.isPure = true)
    (hf : e.Unforwarded) : e.hoists = false ∧ Copies M rounds e (lower e).value := by
  have hh := e.hoists_of_isPure hp hf
  refine ⟨hh, fun s => (mirrors_lower rounds hM hh hf.onlyCallsNatives s).mono fun h _ hx => ?_⟩
  exact ⟨hx.1, hx.2.pure.trans hp, hx.2.eval⟩

theorem needs_pure (hhow : how ≠ .unstable) (h : e.isPure = true) : how.needs e = false := by
  cases how with
  | none => rfl
  | impure => exact congrArg not h
  | unstable => exact absurd rfl hhow

/-- The target was taken without statements, names what the node names, and
has its value. -/
structure Aimed (M : Machine) (rounds : Nat) (t : Expr) (h : Hoisted) : Prop where
  stmts : h.stmts = []
  place : evalPlace M rounds h.value = evalPlace M rounds t
  eval : eval M rounds h.value = eval M rounds t

/-- **A pure target stays where it is**: its parts are moved only if
evaluating them can be observed. -/
theorem gives_target (rounds : Nat) (hM : M.KeepsClosures) (hhow : how ≠ .unstable) :
    ∀ t : Expr, t.bare.isSlot = true → t.isPure = true → (∀ p ∈ t.bare.children, p.Unforwarded) →
        ∀ s, Gives ((lower t).target how) s fun h _ => Aimed M rounds t h
  | .local .., _, _, _, _ => gives_pure ⟨rfl, rfl, rfl⟩
  | .field _ _ _ none, _, _, _, _ => gives_pure ⟨rfl, rfl, rfl⟩
  | .field _ _ _ (some r), _, hp, hf, s => by
    have hr := (copies_pure rounds hM r hp (hf r (.head _))).2
    refine (hr s).bind fun h s₁ hh => (hh.spill (needs_pure hhow hh.pure) s₁).bind fun x _ hx => ?_
    refine gives_pure ⟨hx.stmts, ?_, ?_⟩
    · rw [evalPlace, evalPlace, evalReceiver, evalReceiver, hx.eval]
    · rw [eval, eval, evalReceiver, evalReceiver, hx.eval]
  | .index _ _ base position, _, hp, hf, s => by
    obtain ⟨hpb, hpq⟩ := Bool.and_eq_true_iff.1 hp
    have hb := (copies_pure rounds hM base hpb (hf base (.head _))).2
    have hq := (copies_pure rounds hM position hpq (hf position (.tail _ (.head _)))).2
    refine (hb.pair hq s).bind fun r s₁ hr => ?_
    obtain ⟨hstmts, hrb, hrq⟩ := hr
    refine (hrb.spill (needs_pure hhow hrb.pure) s₁).bind fun x s₂ hx => ?_
    refine (hrq.spill (needs_pure hhow hrq.pure) s₂).bind fun y _ hy => gives_pure ⟨?_, ?_, ?_⟩
    · rw [hstmts]
      exact (congrArg (· ++ _) hx.stmts).trans hy.stmts
    · rw [evalPlace, evalPlace, hx.eval, hy.eval]
    · rw [eval, eval, hx.eval, hy.eval]
  | .paren _ _ inner, ht, hp, hf, s | .annot _ _ _ inner, ht, hp, hf, s =>
    (gives_target rounds hM hhow inner ht hp hf s).mono fun _ _ h => ⟨h.stmts, h.place, h.eval⟩

/-! ## Assignments -/

theorem plain_of_calm (e : Expr) (h : e.hoists = false) : e.bare.isBlockLike = false := by
  fun_induction Expr.bare e with
  | case1 loc type inner ih => exact ih h
  | case2 loc type name inner ih => exact ih h
  | case3 e => cases e <;> simp_all [Expr.hoists, Expr.isBlockLike]

/-- A right side without statements moves no part of the target. -/
theorem assignSpill_ne_unstable (op : BinaryOp) (h : rhs.hoists = false) :
    assignSpill op rhs ≠ .unstable := by
  rw [assignSpill, h, if_neg Bool.false_ne_true]
  split
  · exact Spill.noConfusion
  · exact Spill.noConfusion

/-- The assignment is the one statement, and its target the value. -/
structure Hoists (M : Machine) (rounds : Nat) (t : Expr) (op : BinaryOp) (rhs : Expr)
    (h : Hoisted) : Prop where
  value : eval M rounds h.value = eval M rounds t
  stmts : run M rounds h.stmts = do
    let _ ← Exec.binary op (eval M rounds t) (evalPlace M rounds t) (eval M rounds rhs)

theorem hoists_single {loc : Loc} {type : Ty} {v : Expr} {place : Hoisted}
    (ht : Aimed M rounds t place) (hv : eval M rounds v = eval M rounds rhs) :
    Hoists M rounds t op rhs ⟨place.stmts ++ [.binary loc type op place.value v], place.value⟩ := by
  refine ⟨ht.eval, ?_⟩
  rw [ht.stmts, List.nil_append, run, run, eval, ht.eval, ht.place, hv]

/-- An assignment with a pure target and a pure right side is hoisted. -/
theorem gives_storing (rounds : Nat) (hM : M.KeepsClosures) (he : e.storing? = some (t, op, rhs))
    (ht : t.bare.isSlot = true) (hp : t.isPure = true) (hr : rhs.isPure = true)
    (hf : ∀ p ∈ t.bare.children, p.Unforwarded) (hfr : rhs.Unforwarded) (s : TempSupply) :
    Gives (normalizeValue e) s fun h _ => Hoists M rounds t op rhs h := by
  obtain ⟨hpost, hchange⟩ := Expr.storing?_eq_some he
  obtain ⟨loc, type, rfl, hop⟩ | ⟨loc, type, step, isPost, rfl, hop, rfl, rfl⟩ :=
    Expr.change?_eq_some hchange
  · obtain ⟨hh, hc⟩ := copies_pure rounds hM rhs hr hfr
    have hassign : binaryValue loc type op (lower t) (lower rhs) =
        assignment loc type op (lower t) (lower rhs) := by
      cases op with
      | assign | compound => rfl
      | _ => cases hop
    rw [normalizeValue, value_binary, hassign, assignment, source_lower,
      plain_of_calm rhs hh, Bool.and_false, if_neg Bool.false_ne_true]
    have htarget := gives_target rounds hM (assignSpill_ne_unstable op hh) t ht hp hf s
    refine htarget.bind fun place s₁ hplace => (hc s₁).bind fun h _ hv => gives_pure ?_
    rw [hv.stmts, List.append_nil]
    exact hoists_single hplace hv.eval
  · cases hpost
    change Gives (unaryValue loc type step false (lower t)) s _
    rw [unaryValue, hop, if_pos rfl, if_neg Bool.false_ne_true]
    refine (gives_target rounds hM Spill.noConfusion t ht hp hf s).bind fun place _ hplace => ?_
    exact gives_pure (hoists_single hplace rfl)

/-- What the source stores, and where. -/
theorem eval_storing (rounds : Nat) (he : e.storing? = some (t, op, rhs)) :
    op.isAssignment = true ∧ eval M rounds e =
      Exec.binary op (eval M rounds t) (evalPlace M rounds t) (eval M rounds rhs) := by
  obtain ⟨hpost, hchange⟩ := Expr.storing?_eq_some he
  obtain ⟨loc, type, rfl, hop⟩ | ⟨loc, type, step, isPost, rfl, hop, rfl, rfl⟩ :=
    Expr.change?_eq_some hchange
  · exact ⟨hop, rfl⟩
  · cases hpost
    refine ⟨rfl, ?_⟩
    rw [eval, Exec.unary, hop]
    rfl

/-- **The value of an assignment is what its target holds after the
store.** It is the value stored exactly if the target then names the slot
that was stored into, or one that held that value already; the state is
that of the assignment in any case. If no part of the target reads the
slot that is stored into, it is the value stored. -/
theorem assignment_yields_stored_iff (H : Heap M) (hM : M.KeepsClosures) (rounds : Nat)
    {e t rhs : Expr} {op : BinaryOp} (he : e.storing? = some (t, op, rhs))
    (ht : t.bare.isSlot = true) (hp : t.isPure = true) (hr : rhs.isPure = true)
    (hf : ∀ p ∈ t.bare.children, p.Unforwarded) (hfr : rhs.Unforwarded) (s : TempSupply) :
    Gives (normalizeValue e) s fun h _ => ∀ σ : State M, ∃ v u σ',
      eval M rounds e σ = some (.ok v, σ') ∧
      (H.named rounds t σ).map (Heap.holds σ') = some v ∧
      (do run M rounds h.stmts; eval M rounds h.value) σ = some (.ok u, σ') ∧
      (u = v ↔ H.named rounds t σ' = H.named rounds t σ ∨
        (H.named rounds t σ').map (Heap.holds σ) = some v) ∧
      ((∀ slot ∈ H.named rounds t σ, ∀ p ∈ t.bare.children, ¬ H.Reads rounds σ p slot) →
        u = v) := by
  obtain ⟨hop, heval⟩ := eval_storing (M := M) rounds he
  refine (gives_storing rounds hM he ht hp hr hf hfr s).mono fun h _ hh σ => ?_
  obtain ⟨slot, v, hslot, hstore⟩ :=
    Heap.exists_stored (H := H) rounds σ hop ht hp hr
  -- The target is evaluated again, in the state after the store.
  obtain ⟨q, slot', hplace, hq, hreread⟩ :=
    Heap.exists_named (H := H) rounds (Heap.update σ v slot) t ht hp
  have hslot' := (Heap.named_of_place hplace).trans hq
  have hrun : run M rounds h.stmts σ = some (.ok (), Heap.update σ v slot) := by
    rw [hh.stmts]
    exact Exec.bind_of_ok hstore
  have hiff : Heap.holds (Heap.update σ v slot) slot' = v ↔
      H.named rounds t (Heap.update σ v slot) = H.named rounds t σ ∨
        (H.named rounds t (Heap.update σ v slot)).map (Heap.holds σ) = some v := by
    rw [hslot, hslot', Heap.holds_update_eq_iff, Option.map_some, Option.some_inj, Option.some_inj]
  refine ⟨v, Heap.holds (Heap.update σ v slot) slot', Heap.update σ v slot, ?_, ?_, ?_, hiff,
    fun hreads => hiff.2 (.inl (Heap.named_update t ht hp (hreads slot hslot)))⟩
  · rw [heval, hstore]
  · rw [hslot, Option.map_some, Heap.holds_update_self]
  · rw [Exec.bind_of_ok hrun, hh.value, hreread]

/-- A place in the machine of tables: a name or a position of a value. -/
inductive TableCell where
  | field (name : String) (owner : Option Const)
  | item (table position : Const)
deriving DecidableEq

def tables : Machine :=
  { constants with
    World := TableCell → Const
    ident := fun _ _ => .null
    member := fun ref owner w => w (.field ref.name owner)
    element := fun table position w => w (.item table position)
    enumParam := fun _ _ _ _ => .null
    enumIndex := fun _ _ => .null
    perform := fun _ w => (.ok .null, w)
    setMember := fun ref owner v w d => if d = .field ref.name owner then v else w d
    setElement := fun table position v w d => if d = .item table position then v else w d }

theorem tables_keepsClosures : tables.KeepsClosures := fun _ _ _ _ _ _ => rfl

def tablesHeap : Heap tables where
  Cell := TableCell
  member ref owner := .field ref.name owner
  element table position := .item table position
  get w c := w c
  put w c v := fun d => if d = c then v else w d
  member_eq _ _ _ := rfl
  element_eq _ _ _ := rfl
  setMember_eq _ _ _ _ := rfl
  setElement_eq _ _ _ _ := rfl
  get_put _ _ _ := if_pos rfl
  get_put_of_ne _ _ _ _ h := if_neg h
  enumParam_put _ _ _ _ _ _ := rfl
  enumIndex_put _ _ _ _ := rfl

/-- `a[a[0]]`. -/
def ownElement : Expr :=
  let a : Expr := .local {} ⟨1, "a", .dynamic⟩
  .index {} .int a (.index {} .int a (.intLit {} 0))

/-- `a[a[0]] = 5`. -/
def ownElementStore : Expr := .mkAssign {} ownElement (.intLit {} 5)

theorem assignment_yields_stored_iff_ownElement :
    tables.KeepsClosures ∧ ownElement.bare.isSlot = true ∧ ownElement.isPure = true ∧
      (∀ p ∈ ownElement.bare.children, p.Unforwarded) ∧
      Gives (normalizeValue ownElementStore) .all fun h _ => ∀ σ : State tables, ∃ v u σ',
        eval tables 0 ownElementStore σ = some (.ok v, σ') ∧
        (tablesHeap.named 0 ownElement σ).map (Heap.holds σ') = some v ∧
        (do run tables 0 h.stmts; eval tables 0 h.value) σ = some (.ok u, σ') ∧
        (u = v ↔ tablesHeap.named 0 ownElement σ' = tablesHeap.named 0 ownElement σ ∨
          (tablesHeap.named 0 ownElement σ').map (Heap.holds σ) = some v) ∧
        ((∀ slot ∈ tablesHeap.named 0 ownElement σ, ∀ p ∈ ownElement.bare.children,
          ¬ tablesHeap.Reads 0 σ p slot) → u = v) := by
  have hparts : ∀ p ∈ ownElement.bare.children, p.Unforwarded := by decide
  exact ⟨tables_keepsClosures, rfl, rfl, hparts, @assignment_yields_stored_iff tables tablesHeap
    tables_keepsClosures 0 ownElementStore ownElement (.intLit {} 5) .assign rfl rfl rfl rfl hparts
    rfl .all⟩

/-- **An assignment can yield something else than it stores.** Where
`a[0]` is 0, `a[a[0]] = 5` stores 5 into `a[0]`, and what is read back is
`a[5]`. -/
theorem assignment_yields_other_element :
    ∃ h s u σ', ∃ σ : State tables, normalizeValue ownElementStore .all = .ok h s ∧
      eval tables 0 ownElementStore σ = some (.ok (.int 5), σ') ∧
      (do run tables 0 h.stmts; eval tables 0 h.value) σ = some (.ok u, σ') ∧ u = .null :=
  ⟨_, _, _, _, ⟨fun _ => .null, fun d => if d = .item .null (.int 0) then .int 0 else .null, []⟩,
    rfl, rfl, rfl, rfl⟩

end Normalize

end LuaBackend
