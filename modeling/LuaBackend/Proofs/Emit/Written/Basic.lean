import LuaBackend.Proofs.Emit.Form
import LuaBackend.Proofs.Emit.Writing
import LuaBackend.Proofs.Lua.Jumps

/-!
# What code is written

A `Regime` says what is known of the trees that are written, and what is
said of failures, of the functions in the code and of its form. `Draws` is
the logic of writing under a regime: it says between which labels those of
the code lie, and that the frame of a loop without a label is never asked
for one, if the counter of labels does not run over.

`nest` says of a tree how its loops and jumps nest in the function that it
is written in. A try hands the continues of its body on, after the
protected function that its body becomes.
-/

namespace LuaBackend

open Lua (Nest)

namespace Expr

mutual

def nest (inLoop : Bool) : Expr → List Nest
  | cont _ => if inLoop then [.jump] else []
  | paren _ _ inner => nest inLoop inner
  | annot _ _ _ inner => nest inLoop inner
  | block _ _ exprs => nestAll inLoop exprs
  | ite _ _ _ onTrue onFalse => nestPart inLoop onTrue ++ nestPart inLoop onFalse
  | switch _ _ _ cases default => nestCases inLoop cases ++ nestPart inLoop default
  | loop _ _ _ body => [.loop (nestPart true body)]
  | forIn _ _ _ body => [.loop (nestPart true body)]
  | tryCatch _ _ body handlers =>
    nestLast inLoop handlers ++
      if inLoop && body.any continuesLoop then [.jump] else []
  | _ => []

def nestAll (inLoop : Bool) : List Expr → List Nest
  | [] => []
  | e :: rest => nest inLoop e ++ nestAll inLoop rest

def nestPart (inLoop : Bool) : Option Expr → List Nest
  | none => []
  | some e => nest inLoop e

def nestCases (inLoop : Bool) : List (Case Expr) → List Nest
  | [] => []
  | ⟨_, body⟩ :: rest => nestPart inLoop body ++ nestCases inLoop rest

def nestLast (inLoop : Bool) : List (Handler Expr) → List Nest
  | [] => []
  | [⟨_, body⟩] => nestPart inLoop body
  | _ :: h :: rest => nestLast inLoop (h :: rest)

end

/-- The same of the Lua function that the node makes: a function literal, a
block used for its value, or the protected body of a try. -/
def functionNest? : Expr → Option (List Nest)
  | function _ _ _ _ body => some (nestPart false body)
  | block _ _ exprs => some (nestAll false exprs)
  | tryCatch _ _ body _ => some (nestPart false body)
  | _ => none

theorem nest_bare (inLoop : Bool) (e : Expr) : e.bare.nest inLoop = e.nest inLoop := by
  induction e using induction_on_children with
  | step e ih =>
    cases e with
    | paren _ _ inner => exact ih inner (.head _)
    | annot _ _ _ inner => exact ih inner (.head _)
    | _ => rfl

/-- Nothing jumps where a part is as good as missing. -/
theorem nestPart_of_isEmptyBranch {inLoop : Bool} {part : Option Expr}
    (h : isEmptyBranch part = true) : nestPart inLoop part = [] := by
  cases part with
  | none => rfl
  | some =>
    unfold isEmptyBranch at h
    dsimp only at h
    split at h
    · rename_i hbare
      rw [nestPart, ← nest_bare, hbare]
      rfl
    · cases h

theorem nest_of_value {inLoop : Bool} {e : Expr} (h : e.bare.isStatementOnly = false) :
    e.nest inLoop = [] := by
  induction e using induction_on_children with
  | step e ih =>
    cases e with
    | paren _ _ inner => exact ih inner (.head _) h
    | annot _ _ _ inner => exact ih inner (.head _) h
    | cont | block | ite | switch | loop | forIn | tryCatch => cases h
    | _ => rfl

end Expr

namespace Emit

variable {loc : Loc}

def Scope.home (scope : Scope) : Option UInt32 :=
  match scope.control with
  | .loop label :: _ => if label = 0 then none else some label
  | _ => none

def Scope.inLoop (scope : Scope) : Bool :=
  match scope.control with
  | .loop _ :: _ => true
  | _ => false

/-- What is known of the trees, and what their code is promised to be like. -/
structure Regime where
  /-- The tree may stand where a value is wanted. -/
  value : Expr → Prop
  /-- The tree may stand as a statement. -/
  stmt : Expr → Prop
  /-- Writing may fail so. -/
  fault : Fault → Prop
  /-- A Lua function may have the body, called on the spot or not. -/
  function : Bool → Lua.Block → Prop
  /-- The counter of labels is known not to run over. -/
  counted : Prop
  /-- Words are known to be spelled as names. -/
  spelled : Prop
  /-- The text is a name. -/
  name : String → Prop
  /-- The code can be stored into. -/
  place : Lua.Expr → Prop
  stmt_of_value {e : Expr} : value e → stmt e
  value_part {e c : Expr} : stmt e → c ∈ e.valuePositions → value c
  stmt_part {e c : Expr} : stmt e → c ∈ e.stmtPositions → stmt c
  value_wrapped {e c : Expr} : value e → c ∈ e.wrapped → value c
  stmt_wrapped {e c : Expr} : stmt e → c ∈ e.wrapped → stmt c
  value_called {loc : Loc} {type : Ty} {es : List Expr} {c : Expr} :
    value (.block loc type es) → c ∈ es → value c
  misuse {construct : Construct} {loc : Loc} :
    construct.isMisuse = true → fault (.unsupported construct loc)
  statement {e : Expr} {word : String} {loc : Loc} :
    value e → e.isStatementOnly = true → fault (.unsupported (.statementInValue word) loc)
  coalesce {loc loc' : Loc} {type : Ty} {lhs rhs : Expr} :
    stmt (.binary loc type .nullCoalesce lhs rhs) → fault (.unsupported .nullCoalesceStatement loc')
  operator {loc : Loc} {type : Ty} {op : BinaryOp} {lhs rhs : Expr} :
    stmt (.binary loc type (.compound op) lhs rhs) → op.isMutating = true →
      fault .operatorWithoutValue
  overflow {loc : Loc} {type : Ty} {callee : Expr} {args : List Expr} {text : String} :
    stmt (.call loc type callee args) → text ∈ codeText? callee args →
      placeholdersFit text.toList = false → fault .placeholderOverflow
  unlabelled : ¬ counted → fault .unlabelledContinue
  apart {e : Expr} {ns : List Nest} {body : Lua.Block} :
    stmt e → ns ∈ e.functionNest? → (counted → Lua.Routed ns body) → function false body
  called {loc : Loc} {type : Ty} {es : List Expr} {body : Lua.Block} :
    value (.block loc type es) → (counted → Lua.Routed (Expr.nestAll false es) body) →
      function true body
  brought : spelled → ∀ text ∈ broughtNames, name text
  word {e : Expr} {w : Word} : spelled → stmt e → w ∈ e.words → SpelledBy name w
  stored {e target : Expr} {scope : Scope} : spelled → stmt e → target ∈ e.stored? →
    Based name scope → Ensures scope (emit target).value place

section Regime

variable {T : Regime} {scope : Scope} {c e : Expr}

theorem Regime.var {v : Var} (hs : T.spelled) (h : T.stmt e) (hv : v ∈ e.vars) :
    T.name (Lua.localName v) :=
  T.word (w := .var v) hs h (List.mem_append_left _ (List.mem_map_of_mem hv))

theorem Regime.path {path : TypePath} (hs : T.spelled) (h : T.stmt e) (hp : path ∈ e.paths) :
    T.name path.global :=
  T.word (w := .type path) hs h
    (List.mem_append_right _ (List.mem_append_left _ (List.mem_map_of_mem hp)))

theorem Regime.value_bare (h : T.value e) : T.value e.bare := by
  induction e using Expr.induction_on_children with
  | step e ih =>
    cases e with
    | paren _ _ inner => exact ih inner (.head _) (T.value_wrapped h (.head _))
    | annot _ _ _ inner => exact ih inner (.head _) (T.value_wrapped h (.head _))
    | _ => exact h

/-- Where words are names, nothing is called that takes text over as code. -/
theorem Regime.ident {type : Ty} {name : String} (hs : T.spelled) (h : T.value e)
    (hbare : e.bare = .ident loc type name) : name ≠ "__lua__" ∧ name ≠ "__global__" := by
  refine T.word (w := .ident name) hs (T.stmt_of_value (T.value_bare h)) ?_
  rw [hbare]
  exact .head _

/-- It may stand as a statement, and no continue in it meets a loop without
a label. -/
def Regime.Stands (T : Regime) (scope : Scope) (e : Expr) : Prop :=
  (T.counted → Quiet scope e) ∧ T.stmt e

/-- The parts of a statement stand as well. -/
theorem Regime.Stands.part (h : T.Stands scope e) (hc : c ∈ e.stmtPositions)
    (hstop : (e.isFunction || e.isLoop) = false) : T.Stands scope c :=
  ⟨fun ht => (h.1 ht).child (Expr.mem_children_iff.2 (.inr (.inl hc))) hstop, T.stmt_part h.2 hc⟩

theorem Regime.Stands.wrapped (h : T.Stands scope e) (hc : c ∈ e.wrapped)
    (hstop : (e.isFunction || e.isLoop) = false) : T.Stands scope c :=
  ⟨fun ht => (h.1 ht).child (Expr.mem_children_iff.2 (.inr (.inr hc))) hstop, T.stmt_wrapped h.2 hc⟩

/-- What the regime knows where `j` labels are taken from `n` on. -/
def Regime.Sees (T : Regime) (scope : Scope) (n : UInt32) (j : Nat) : Prop :=
  (T.counted → 0 < n.toNat ∧ n.toNat + j < UInt32.size) ∧ (T.spelled → Based T.name scope)

end Regime

/-! ## Taking labels -/

section Draws

variable {α β : Type} {T : Regime} {scope : Scope} {k k' : Nat} {q q' : Prop} {act : EmitM α}
variable {P Q : Nat → Nat → α → Prop} {R : Nat → Nat → β → Prop}

/-- Writing takes `j ≤ k` labels from the counter. If the regime is right
about the counter and the superclass, a result satisfies `Q` with all bounds
between which the labels lie, and a failure is one that may happen. This is
known under `q` only, the number of labels always. -/
def Draws (T : Regime) (q : Prop) (scope : Scope) (k : Nat) (act : EmitM α)
    (Q : Nat → Nat → α → Prop) : Prop :=
  ∀ n : UInt32, ∃ j ≤ k,
    match act scope n with
    | .ok a n' => n' = n + .ofNat j ∧ (q → T.Sees scope n j →
        ∀ lo hi, (T.counted → lo ≤ n.toNat ∧ n.toNat + j ≤ hi) → Q lo hi a)
    | .error fault n' => n' = n + .ofNat j ∧ (q → T.Sees scope n j → T.fault fault)

theorem toNat_add_ofNat {n : UInt32} {j : Nat} (h : n.toNat + j < UInt32.size) :
    (n + .ofNat j).toNat = n.toNat + j := by
  rw [UInt32.toNat_add, UInt32.toNat_ofNat_of_lt' (by omega)]
  exact Nat.mod_eq_of_lt h

theorem draws_pure {a : α} (h : q → ∀ lo hi, (T.counted → lo ≤ hi) → Q lo hi a) :
    Draws T q scope k (pure a) Q :=
  fun n => ⟨0, Nat.zero_le _, (UInt32.add_zero n).symm,
    fun hq _ lo hi hle => h hq lo hi fun ht => Nat.le_trans (hle ht).1 (hle ht).2⟩

theorem draws_throw {fault : Fault} (h : q → T.fault fault) :
    Draws T q scope k (refuse fault : EmitM α) Q :=
  fun n => ⟨0, Nat.zero_le _, (UInt32.add_zero n).symm, fun hq _ => h hq⟩

/-- A construct is refused that may be misused under every regime. -/
theorem draws_misuse {construct : Construct} (h : construct.isMisuse = true) :
    Draws T q scope k (unsupported construct loc : EmitM α) Q := draws_throw fun _ => T.misuse h

/-- The second part has its labels from where the first one ended. -/
theorem Draws.bind {f : α → EmitM β} (h : Draws T q scope k act P)
    (hf : ∀ a, Draws T (q ∧ ∃ lo mid, P lo mid a) scope k' (f a) fun mid hi b =>
      ∀ lo, (T.counted → lo ≤ mid ∧ mid ≤ hi) → P lo mid a → R lo hi b) :
    Draws T q scope (k + k') (act >>= f) R := by
  intro n
  obtain ⟨j, hj, hfirst⟩ := h n
  cases hact : act scope n with
  | error =>
    rw [hact] at hfirst
    rw [bind_of_error hact]
    exact ⟨j, by omega, hfirst⟩
  | ok a =>
    rw [hact] at hfirst
    rw [bind_of_ok hact]
    obtain ⟨rfl, ha⟩ := hfirst
    obtain ⟨j', hj', hrest⟩ := hf a (n + .ofNat j)
    have hcount : n + .ofNat j + .ofNat j' = n + .ofNat (j + j') := by
      rw [UInt32.add_assoc, UInt32.ofNat_add]
    -- The counter is where the first one ended, and has not run over by then.
    have hmid (hsees : T.Sees scope n (j + j')) (ht : T.counted) :
        (n + .ofNat j).toNat = n.toNat + j :=
      toNat_add_ofNat (by have := (hsees.1 ht).2; omega)
    have hsees₁ (hsees : T.Sees scope n (j + j')) : T.Sees scope n j :=
      ⟨fun ht => by have := hsees.1 ht; omega, hsees.2⟩
    have hsees₂ (hsees : T.Sees scope n (j + j')) : T.Sees scope (n + .ofNat j) j' :=
      ⟨fun ht => by have := hsees.1 ht; have := hmid hsees ht; omega, hsees.2⟩
    refine ⟨j + j', by omega, ?_⟩
    cases hb : f a scope (n + .ofNat j) with
    | error =>
      rw [hb] at hrest
      refine ⟨hrest.1.trans hcount, fun hq hsees => ?_⟩
      have hP := ha hq (hsees₁ hsees) _ _ fun _ => ⟨.refl, .refl⟩
      exact hrest.2 ⟨hq, _, _, hP⟩ (hsees₂ hsees)
    | ok =>
      rw [hb] at hrest
      refine ⟨hrest.1.trans hcount, fun hq hsees lo hi hle => ?_⟩
      have hP := ha hq (hsees₁ hsees) lo (n.toNat + j) fun ht => ⟨(hle ht).1, .refl⟩
      refine hrest.2 ⟨hq, _, _, hP⟩ (hsees₂ hsees) (n.toNat + j) hi (fun ht => ?_) lo
        (fun ht => ?_) hP
      · have := hle ht
        have := hmid hsees ht
        omega
      · have := hle ht
        omega

theorem Draws.mono (h : Draws T q scope k act P) (hk : k ≤ k') (hq : q' → q)
    (hPQ : q' → ∀ lo hi a, P lo hi a → Q lo hi a) : Draws T q' scope k' act Q := by
  intro n
  obtain ⟨j, hj, hact⟩ := h n
  refine ⟨j, by omega, ?_⟩
  cases hrun : act scope n with
  | ok a =>
    rw [hrun] at hact
    exact ⟨hact.1, fun hq' hsees lo hi hle => hPQ hq' lo hi a (hact.2 (hq hq') hsees lo hi hle)⟩
  | error =>
    rw [hrun] at hact
    exact ⟨hact.1, fun hq' => hact.2 (hq hq')⟩

theorem Draws.le (h : Draws T q scope k act Q) (hk : k ≤ k') : Draws T q scope k' act Q :=
  h.mono hk id fun _ _ _ _ => id

theorem Draws.under (h : Draws T q scope k act Q) (hq : q' → q) : Draws T q' scope k act Q :=
  h.mono .refl hq fun _ _ _ _ => id

theorem Draws.imp (h : Draws T q scope k act P) (hPQ : ∀ lo hi a, P lo hi a → Q lo hi a) :
    Draws T q scope k act Q := h.mono .refl id fun _ => hPQ

section

variable (h : Draws T (q ∧ (T.spelled → Based T.name scope)) scope k act Q)
include h

/-- The superclass is known to be written as a name. -/
theorem Draws.ensuring {S : α → Prop}
    (hS : q → T.spelled → Based T.name scope → Ensures scope act S) :
    Draws T q scope k act fun lo hi a => Q lo hi a ∧ (T.spelled → S a) := by
  intro n
  obtain ⟨j, hj, hact⟩ := h n
  refine ⟨j, hj, ?_⟩
  cases hrun : act scope n with
  | ok a n' =>
    rw [hrun] at hact
    exact ⟨hact.1, fun hq hsees lo hi hle => ⟨hact.2 ⟨hq, hsees.2⟩ hsees lo hi hle,
      fun hs => hS hq hs (hsees.2 hs) n a n' hrun⟩⟩
  | error =>
    rw [hrun] at hact
    exact ⟨hact.1, fun hq hsees => hact.2 ⟨hq, hsees.2⟩ hsees⟩

theorem draws_based : Draws T q scope k act Q :=
  (h.ensuring fun _ _ _ => ensures_true).imp fun _ _ _ => And.left

end

theorem Draws.widen (h : Draws T q scope k act Q) : Draws T q scope k act fun lo hi a =>
    ∀ lo' hi', (T.counted → lo' ≤ lo ∧ hi ≤ hi') → Q lo' hi' a := by
  intro n
  obtain ⟨j, hj, hact⟩ := h n
  refine ⟨j, hj, ?_⟩
  cases hrun : act scope n with
  | ok =>
    rw [hrun] at hact
    refine ⟨hact.1, fun hq hsees lo hi hle lo' hi' hle' => hact.2 hq hsees lo' hi' fun ht => ?_⟩
    have := hle ht
    have := hle' ht
    omega
  | error =>
    rw [hrun] at hact
    exact hact

/-- What is written first has no labels that matter. -/
theorem Draws.then {P : α → Prop} {f : α → EmitM β} (h : Draws T q scope k act fun _ _ a => P a)
    (hf : ∀ a, Draws T (q ∧ P a) scope k' (f a) R) : Draws T q scope (k + k') (act >>= f) R := by
  refine h.bind fun a => (hf a).widen.mono .refl ?_ ?_
  · rintro ⟨hq, -, -, ha⟩
    exact ⟨hq, ha⟩
  · intro _ mid hi b hb lo hle _
    exact hb lo hi fun ht => ⟨(hle ht).1, .refl⟩

theorem Draws.map {f : α → β} (h : Draws T q scope k act P)
    (hf : q → ∀ lo hi a, P lo hi a → R lo hi (f a)) :
    Draws T q scope k (act >>= fun a => pure (f a)) R := by
  refine h.widen.bind fun a => (?_ : Draws _ _ scope 0 _ _)
  exact draws_pure fun hq mid hi _ lo hle ha =>
    hf hq.1 lo hi a (ha lo hi fun ht => ⟨.refl, (hle ht).2⟩)

theorem draws_read {f : Scope → EmitM α} (h : Draws T q scope k (f scope) Q) :
    Draws T q scope k (EmitM.scope >>= f) Q := by
  unfold Draws
  rw [EmitM.run_scope_bind]
  exact h

/-- The frame of a loop or protected body is on the stack of control. -/
theorem draws_within {frame : Frame}
    (h : Draws T q { scope with control := frame :: scope.control } k act Q) :
    Draws T q scope k (within frame act) Q := by
  unfold Draws
  rw [EmitM.run_within]
  exact h

/-- A function starts with an empty stack of control. -/
theorem draws_withinFunction (h : Draws T q { scope with control := [], inCtor := false } k act Q) :
    Draws T q scope k (withinFunction act) Q := by
  unfold Draws
  rw [EmitM.run_withinFunction]
  exact h

theorem Draws.indented (h : Draws T q scope k act Q) : Draws T q scope k (indented act) Q := by
  rw [EmitM.indented_eq]
  exact h

/-- The next label is not zero, and all later ones are greater. -/
theorem draws_freshLabel : Draws T q scope 1 freshLabel fun lo hi label =>
    T.counted → label ≠ 0 ∧ lo ≤ label.toNat ∧ label.toNat < hi := by
  intro n
  refine ⟨1, .refl, rfl, fun _ hsees lo hi hle ht => ?_⟩
  change n ≠ 0 ∧ lo ≤ n.toNat ∧ n.toNat < hi
  have := hsees.1 ht
  have := hle ht
  refine ⟨?_, by omega, by omega⟩
  rintro rfl
  exact absurd (hsees.1 ht).1 (Nat.lt_irrefl 0)

end Draws

/-! ## Code under a regime -/

section Sound

variable (T : Regime)

def Sound (v : Lua.Expr) : Prop :=
  v.Functions T.function ∧ (T.spelled → v.Formed T.name T.place)

def SoundHead (v : Lua.Expr) : Prop :=
  v.Functions T.function ∧ (T.spelled → v.isHead = true ∧ v.Formed T.name T.place)

def SoundCall (v : Lua.Expr) : Prop :=
  v.Functions T.function ∧ (T.spelled → v.isCall = true ∧ v.Formed T.name T.place)

def SoundValue (e : Expr) (v : Lua.Expr) : Prop :=
  v.Functions T.function ∧
    (T.spelled → (isHead e = true → v.isHead = true) ∧ v.Formed T.name T.place)

def SoundAll (vs : List Lua.Expr) : Prop :=
  Lua.Expr.AllFunctions T.function vs ∧ (T.spelled → Lua.Expr.AllFormed T.name T.place vs)

def SoundStmt (s : Lua.Stmt) : Prop :=
  s.Functions T.function ∧ (T.spelled → s.Formed T.name T.place)

variable {T} {e : Expr} {v w : Lua.Expr} {vs : List Lua.Expr} {text : String}

theorem SoundValue.sound (h : SoundValue T e v) : Sound T v := ⟨h.1, fun hs => (h.2 hs).2⟩

theorem SoundHead.sound (h : SoundHead T v) : Sound T v := ⟨h.1, fun hs => (h.2 hs).2⟩

theorem SoundHead.value (h : SoundHead T v) : SoundValue T e v :=
  ⟨h.1, fun hs => ⟨fun _ => (h.2 hs).1, (h.2 hs).2⟩⟩

theorem Sound.value (h : Sound T v) (he : isHead e = false) : SoundValue T e v :=
  ⟨h.1, fun hs => ⟨fun hhead => absurd (he.symm.trans hhead) Bool.false_ne_true, h.2 hs⟩⟩

theorem SoundCall.head (h : SoundCall T v) : SoundHead T v :=
  ⟨h.1, fun hs => ⟨Lua.Expr.isHead_of_isCall (h.2 hs).1, (h.2 hs).2⟩⟩

theorem soundHead_dotted (h : T.spelled → Lua.Dotted T.name text) : SoundHead T (.name text) :=
  ⟨trivial, fun hs => ⟨rfl, h hs⟩⟩

theorem soundHead_name (h : T.spelled → T.name text) : SoundHead T (.name text) :=
  soundHead_dotted fun hs => Lua.dotted_name (h hs)

theorem soundHead_brought (h : text ∈ broughtNames) : SoundHead T (.name text) :=
  soundHead_name fun hs => T.brought hs text h

theorem sound_int {value : Int} : Sound T (.int value) := ⟨trivial, fun _ => trivial⟩

section

variable (h : SoundHead T v)
include h

theorem SoundHead.member : SoundHead T (.member v text) :=
  ⟨h.1, fun hs => ⟨rfl, h.2 hs⟩⟩

theorem SoundHead.key : SoundHead T (.key v text) :=
  ⟨h.1, fun hs => ⟨rfl, h.2 hs⟩⟩

theorem SoundHead.index (hw : Sound T w) : SoundHead T (.index v w) :=
  ⟨⟨h.1, hw.1⟩, fun hs => ⟨rfl, h.2 hs, hw.2 hs⟩⟩

/-- A call of something that can be called. -/
theorem SoundHead.call (hvs : SoundAll T vs) : SoundCall T (.call v vs) :=
  ⟨⟨h.1, hvs.1⟩, fun hs => ⟨rfl, h.2 hs, hvs.2 hs⟩⟩

theorem SoundHead.callWithSelf (hvs : SoundAll T vs) :
    SoundCall T (.callWithSelf v vs) := ⟨⟨h.1, hvs.1⟩, fun hs => ⟨rfl, h.2 hs, hvs.2 hs⟩⟩

theorem SoundHead.method (htext : Lua.isName text = true)
    (hvs : SoundAll T vs) : SoundCall T (.method v text vs) :=
  ⟨⟨h.1, hvs.1⟩, fun hs => ⟨rfl, h.2 hs, htext, hvs.2 hs⟩⟩

end

theorem soundAll_nil : SoundAll T [] := ⟨trivial, fun _ => trivial⟩

theorem Sound.cons (h : Sound T v) (hvs : SoundAll T vs) : SoundAll T (v :: vs) :=
  ⟨⟨h.1, hvs.1⟩, fun hs => ⟨h.2 hs, hvs.2 hs⟩⟩

theorem soundCall_brought (text : String) (h : text ∈ broughtNames) (hvs : SoundAll T vs) :
    SoundCall T (.call (.name text) vs) := (soundHead_brought h).call hvs

theorem Sound.binary {op : Lua.Operator} (h : Sound T v) (hw : Sound T w) :
    Sound T (.binary op v w) := ⟨⟨h.1, hw.1⟩, fun hs => ⟨h.2 hs, hw.2 hs⟩⟩

end Sound

section Written

variable (T : Regime)

/-- The regime holds in the functions of the statements, their own jumps go
to the ends of their loops, or home, and they are well formed where more
statements may follow. -/
structure Lands (followed : Bool) (home : Option UInt32) (ns : List Nest) (lo hi : Nat)
    (code : Lua.Block) : Prop where
  functions : Lua.Stmt.AllFunctions T.function code
  laid : T.counted → Lua.Laid home ns lo hi (Lua.Stmt.outlineAll code)
  sequel : T.spelled → Sequel T.name T.place followed code

/-- The same of what follows the first arm of a branch. -/
structure ElseTail.Lands (home : Option UInt32) (ns : List Nest) (lo hi : Nat) (tail : ElseTail) :
    Prop where
  functions : Lua.Stmt.ArmsFunctions T.function tail.arms ∧
    Lua.Stmt.OtherwiseFunctions T.function tail.otherwise
  laid : T.counted → Lua.Laid home ns lo hi
    (Lua.Stmt.outlineArms tail.arms ++ Lua.Stmt.outlineOtherwise tail.otherwise)
  formed : T.spelled → tail.Formed T.name T.place

/-- Wherever the regime lets the tree stand, its code is as promised. -/
structure Written (e : Expr) : Prop where
  value : ∀ scope {q : Prop}, (q → T.value e) →
    Draws T q scope (demand e) (emit e).value fun _ _ => SoundValue T e
  receiver : ∀ scope {q : Prop}, (q → T.value e) → ∀ act ∈ (emit e).receiver,
    Draws T q scope (demand e) act fun _ _ => SoundHead T
  stmt : ∀ scope last, Draws T (T.Stands scope e) scope (demand e) ((emit e).stmt last)
    (Lands T (!last) scope.home (e.nest scope.inLoop))
  body : ∀ scope followed, Draws T (T.Stands scope e) scope (demand e) ((emit e).body followed)
    (Lands T followed scope.home (e.nest scope.inLoop))
  orElse : ∀ scope, Draws T (T.Stands scope e) scope (demand e) (emit e).orElse
    (ElseTail.Lands T scope.home (e.nest scope.inLoop))

variable {T} {followed : Bool} {home : Option UInt32} {ns ns' : List Nest} {lo mid hi : Nat}
variable {code code' : Lua.Block}

theorem lands_nil : Lands T followed home [] lo hi [] :=
  ⟨trivial, fun _ => .nil, fun _ => sequel_nil⟩

/-- A statement that neither is nor holds a jump. -/
theorem lands_still {s : Lua.Stmt} (h : SoundStmt T s) (hs : s.outline = [])
    (hreturn : s.isReturn = false) : Lands T followed home [] lo hi [s] := by
  refine ⟨⟨h.1, trivial⟩, fun _ => ?_, fun hs => sequel_singleton (h.2 hs) hreturn⟩
  rw [Lua.Stmt.outlineAll, hs]
  exact .nil

/-- Code of one function, one part after the other. -/
theorem Lands.append (h : Lands T true home ns lo mid code)
    (h' : Lands T followed home ns' mid hi code') (hle : T.counted → lo ≤ mid ∧ mid ≤ hi) :
    Lands T followed home (ns ++ ns') lo hi (code ++ code') := by
  refine ⟨h.functions.append h'.functions, fun ht => ?_,
    fun hs => (h.sequel hs).append (h'.sequel hs)⟩
  rw [Lua.Stmt.outlineAll_append]
  exact (h.laid ht).append (h'.laid ht) (hle ht).1 (hle ht).2

theorem Draws.append {scope : Scope} {k k' : Nat} {q : Prop} {act act' : EmitM Lua.Block}
    (h : Draws T q scope k act (Lands T true home ns))
    (h' : Draws T q scope k' act' (Lands T followed home ns')) :
    Draws T q scope (k + k') (do
      let code ← act
      return code ++ (← act')) (Lands T followed home (ns ++ ns')) :=
  h.bind fun _ => (h'.under And.left).map fun _ _ _ _ hcode' _ hle hcode =>
    hcode.append hcode' hle

theorem Lands.otherwise (h : Lands T followed home ns lo hi code) :
    ElseTail.Lands T home ns lo hi { otherwise := some code } :=
  ⟨⟨trivial, h.functions⟩, h.laid, fun hs => ⟨trivial, (h.sequel hs).1⟩⟩

end Written

end Emit

end LuaBackend
