import LuaBackend.Proofs.Emit.Basic
import LuaBackend.Proofs.Control.Code

/-!
# Code that does what a tree does

`Writes` is the logic of writing: it succeeds as long as there are labels.
`Does` relates written code to a flow: the code ends as the flow does,
only that a break and a continue are what the surroundings make of them
(`encode`), and Lua accepts it.
-/

namespace LuaBackend.Control

open Emit Run List Code

section Writes

variable {α β : Type}
variable {R : β → Prop} {a : α} {f : α → EmitM β}

/-- Writing succeeds with a result that satisfies `Q` and takes at most `k`
labels, if that many are left. -/
def Writes (scope : Emit.Scope) (k : Nat) (act : EmitM α) (Q : α → Prop) : Prop :=
  ∀ n : UInt32, 0 < n.toNat → n.toNat + k < UInt32.size →
    ∃ a n', act scope n = .ok a n' ∧ n.toNat ≤ n'.toNat ∧ n'.toNat ≤ n.toNat + k ∧ Q a

variable {scope : Emit.Scope} {k k' : Nat} {P Q : α → Prop} {act : EmitM α}

theorem writes_pure (h : Q a) : Writes scope k (pure a) Q :=
  fun n _ _ => ⟨a, n, rfl, Nat.le_refl _, Nat.le_add_right _ _, h⟩

theorem writes_of_eq (hact : ∀ n, act scope n = .ok a n) (h : Q a) : Writes scope k act Q :=
  fun n _ _ => ⟨a, n, hact n, Nat.le_refl _, Nat.le_add_right _ _, h⟩

section

variable (h : Writes scope k act P)
include h

theorem Writes.bind (hf : ∀ a, P a → Writes scope k' (f a) R) :
    Writes scope (k + k') (act >>= f) R := by
  intro n hn hk
  obtain ⟨a, n₁, hact, hle, hbound, ha⟩ := h n hn (by omega)
  obtain ⟨b, n₂, hb, hle', hbound', hR⟩ := hf a ha n₁ (by omega) (by omega)
  exact ⟨b, n₂, (bind_of_ok hact).trans hb, by omega, by omega, hR⟩

theorem Writes.mono (hk : k ≤ k') (hPQ : ∀ a, P a → Q a) : Writes scope k' act Q := by
  intro n hn hlt
  obtain ⟨a, n', hact, hle, hbound, ha⟩ := h n hn (by omega)
  exact ⟨a, n', hact, hle, by omega, hPQ a ha⟩

/-- What is written second takes no labels. -/
theorem Writes.bind_free (hf : ∀ a, P a → Writes scope 0 (f a) R) :
    Writes scope k (act >>= f) R := h.bind hf

theorem Writes.map {f : α → β} (hf : ∀ a, P a → R (f a)) :
    Writes scope k (act >>= fun a => pure (f a)) R :=
  h.bind_free fun a ha => writes_pure (hf a ha)

end

theorem Writes.indented (h : Writes scope k act Q) : Writes scope k (indented act) Q := by
  rw [EmitM.indented_eq]
  exact h

theorem writes_freshLabel : Writes scope 1 freshLabel (· ≠ 0) := by
  intro n hn hlt
  refine ⟨n, n + 1, rfl, ?_, ?_, ?_⟩
  · rw [UInt32.toNat_add]
    change n.toNat ≤ (n.toNat + 1) % UInt32.size
    rw [Nat.mod_eq_of_lt hlt]
    omega
  · rw [UInt32.toNat_add]
    exact Nat.mod_le _ _
  · rintro rfl
    exact absurd hn (Nat.lt_irrefl 0)

def inside (scope : Emit.Scope) (control : List Frame) : Emit.Scope := { scope with control }

theorem writes_within {control : List Frame} {frame : Frame}
    (h : Writes (inside scope (frame :: control)) k act Q) :
    Writes (inside scope control) k (within frame act) Q := by
  unfold Writes
  rw [EmitM.run_within]
  exact h

end Writes

/-- What a jump becomes in these loops and protected bodies, the innermost
first. -/
def encode {V : Type} (control : List Frame) : Jump V → LuaExit V
  | .ret v => .ret (.prog v)
  | .throw v => .throw (.prog v)
  | .brk =>
    match control with
    | [] => .stuck
    | .loop _ :: _ => .brk
    | .protect :: _ => .ret (.mark .brk)
  | .cont =>
    match control with
    | [] => .stuck
    | .loop label :: _ => .goto label
    | .protect :: _ => .ret (.mark .cont)

/-- Its breaks and continues have somewhere to go. -/
structure Open (control : List Frame) (e : Expr) : Prop where
  brk : e.breaksLoop = true → control ≠ []
  cont : e.continuesLoop = true → control ≠ [] ∧ control.head? ≠ some (.loop 0)

def Reaches : List Frame → Code.Reach → Prop
  | .loop label :: _, r => r.inLoop = true ∧ (label ≠ 0 → label ∈ r.labels)
  | _, _ => True

section Open

variable {control : List Frame} {c e : Expr}

theorem Open.child (h : Open control e) (hc : c ∈ e.children) (hfun : e.isFunction = false)
    (hloop : e.isLoop = false) : Open control c := by
  have hstop : (e.isFunction || e.isLoop) = false := by rw [hfun, hloop]; rfl
  exact ⟨fun hb => h.brk (Expr.search_of_child hc hstop hb),
    fun hb => h.cont (Expr.search_of_child hc hstop hb)⟩

/-- Every jump can leave a protected body. -/
theorem open_protect : Open (.protect :: control) e :=
  ⟨fun _ => cons_ne_nil _ _, fun _ => ⟨cons_ne_nil _ _, nofun⟩⟩

theorem open_loop {label : UInt32} (h : e.continuesLoop = true → label ≠ 0) :
    Open (.loop label :: control) e := by
  refine ⟨fun _ => cons_ne_nil _ _, fun hc => ⟨cons_ne_nil _ _, ?_⟩⟩
  rintro ⟨⟩
  exact h hc rfl

/-- A jump that the tree can make is not stuck. -/
theorem Open.encode_ne_stuck {H : Host} {j : Jump H.Value} (h : Open control e)
    (hj : Found e j) : encode control j ≠ .stuck := by
  cases j with
  | ret | throw => exact nofun
  | brk =>
    rcases control with _ | ⟨_ | _, _⟩
    · exact absurd rfl (h.brk hj)
    all_goals exact nofun
  | cont =>
    rcases control with _ | ⟨_ | _, _⟩
    · exact absurd rfl (h.cont hj).1
    all_goals exact nofun

end Open

variable {H : Host}

/-- In these loops and protected bodies, the code does what the flow does.
Other code may follow it unless it is `last`. -/
structure Does (L : CodeOracle H) (control : List Frame) (last : Bool) (flow : Nat → Flow H Unit)
    (code : Lua.Block) : Prop where
  runs : ∀ n env, void (seq L n code env) = mapExit (encode control) (flow n)
  valid : ∀ r, Reaches control r → Code.ValidAll r code
  returnsLast : Code.ReturnsLast code
  goesOn : last = false → ∀ v, .ret v ∉ code
  unlabelled : ∀ label, .label label ∉ code

variable {L : CodeOracle H} {control : List Frame} {last : Bool} {flow flow' : Nat → Flow H Unit}
  {code code' : Lua.Block}

namespace Does

section

variable (h : Does L control last flow code)
include h

theorem block (n : Nat) (env : Locals H.Value) :
    Code.block L n code env = mapExit (encode control) (flow n) := by
  rw [Code.block, Code.closing_eq_void (Code.endLabel_eq_none h.unlabelled), h.runs]

theorem validBlock {r : Code.Reach} (hr : Reaches control r) : Code.ValidBlock r code := by
  refine ⟨h.returnsLast, ?_⟩
  rw [Code.Reach.into_eq_self (endLabel_eq_none h.unlabelled)]
  exact h.valid r hr

theorem congr (heq : ∀ n, flow n = flow' n) : Does L control last flow' code where
  runs n env := by rw [h.runs, heq]
  valid := h.valid
  returnsLast := h.returnsLast
  goesOn := h.goesOn
  unlabelled := h.unlabelled

end

/-- Code that others may follow may be the last. -/
theorem weaken (h : Does L control false flow code) : Does L control last flow code :=
  { h with goesOn := fun _ => h.goesOn rfl }

theorem nil : Does L control last (fun _ => pure ()) [] where
  runs _ _ := rfl
  valid _ _ := trivial
  returnsLast := nofun
  goesOn _ := nofun
  unlabelled := nofun

/-- Code of one node after the other. -/
theorem append (h : Does L control false flow code) (h' : Does L control last flow' code') :
    Does L control last (fun n => do flow n; flow' n) (code ++ code') where
  runs n env := by
    have hnext : ∀ env', void (seq L n code' env') = mapExit (encode control) (flow' n) :=
      h'.runs n
    rw [seq_append, void_bind, funext hnext, void_bind_const, h.runs, mapExit_bind]
  valid r hr := validAll_append.2 ⟨h.valid r hr, h'.valid r hr⟩
  returnsLast v hv := by
    cases code' with
    | nil =>
      rw [append_nil] at hv
      exact h.goesOn rfl v (dropLast_subset _ hv)
    | cons s rest =>
      rw [dropLast_append_of_ne_nil (cons_ne_nil s rest)] at hv
      rcases mem_append.1 hv with hv | hv
      · exact h.goesOn rfl v hv
      · exact h'.returnsLast v hv
  goesOn hlast v hv := by
    rcases mem_append.1 hv with hv | hv
    · exact h.goesOn rfl v hv
    · exact h'.goesOn hlast v hv
  unlabelled label hl := by
    rcases mem_append.1 hl with hl | hl
    · exact h.unlabelled label hl
    · exact h'.unlabelled label hl

theorem singleton {s : Lua.Stmt}
    (runs : ∀ n env, void (step L n s env) = mapExit (encode control) (flow n))
    (valid : ∀ r, Reaches control r → Code.Valid r s) (goesOn : last = false → ∀ v, s ≠ .ret v)
    (unlabelled : ∀ label, s ≠ .label label) : Does L control last flow [s] where
  runs n env := by rw [seq_singleton, runs]
  valid r hr := ⟨valid r hr, trivial⟩
  returnsLast := nofun
  goesOn hlast v hv := goesOn hlast v (mem_singleton.1 hv).symm
  unlabelled label hl := unlabelled label (mem_singleton.1 hl).symm

end Does

end LuaBackend.Control
