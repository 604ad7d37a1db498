import LuaBackend.Proofs.Control.Run
import LuaBackend.Proofs.Semantics.Machine
import LuaBackend.Proofs.Tree.Children

/-!
# The control flow of trees

What a tree of statements does, with all values and the statements without
control flow left to an oracle. A statement runs to its end, or it breaks,
continues, returns or throws. The searches for jumps that leave a body are
sound for this (`exits_exec`).
-/

namespace LuaBackend

open List

def Expr.isSimple : Expr → Bool
  | .paren .. | .annot .. | .block .. | .forIn .. | .ite .. | .loop .. | .switch .. | .ret ..
  | .brk .. | .cont .. | .throw .. | .tryCatch .. => false
  | _ => true

namespace Control

variable {e : Expr}
variable {c cond : Expr}

/-- States and values, and what can be done with them in any language. -/
structure Host where
  State : Type
  Value : Type
  nil : Value
  bool : Bool → Value
  truth : Value → Bool
  same : Value → Value → Bool
  /-- Calls a method without arguments: its result or what it throws, and
  the state after it. -/
  invoke : Value → String → State → Except Value Value × State
  truth_bool : ∀ b, truth (bool b) = b

/-- What parts without control flow do, in a language with expressions `E`,
statements `S` and names `N` of locals. Expressions and statements may
throw. -/
structure Oracle (H : Host) (E S N : Type) where
  value : E → H.State → Except H.Value H.Value × H.State
  simple : S → H.State → Except H.Value Unit × H.State
  declare : N → H.Value → H.State → H.State

abbrev Flow (H : Host) (α : Type) : Type := Run H.State (Jump H.Value) α

abbrev TreeOracle (H : Host) : Type := Oracle H Expr Expr Var

open Run

variable {H : Host}

def call (it : H.Value) (name : String) : Flow H H.Value := attempt .throw (H.invoke it name)

def turn (body : Flow H Unit) : Flow H Bool := body.after fun
  | .ok () => pure true
  | .error .brk => pure false
  | .error .cont => pure true
  | .error j => exit j

def handle (body : Flow H Unit) (handler : H.Value → Flow H Unit) : Flow H Unit := body.after fun
  | .ok () => pure ()
  | .error (.throw v) => handler v
  | .error j => exit j

section

variable (M : TreeOracle H)

def value (e : Expr) : Flow H H.Value := attempt .throw (M.value e)

def selects (subject : H.Value) : List Expr → Flow H Bool
  | [] => pure false
  | e :: rest => do if H.same subject (← value M e) then return true else selects subject rest

def giveBack : Option Expr → Flow H Unit
  | none => exit (.ret H.nil)
  | some e => do exit (.ret (← value M e))

def testBefore (cond : Expr) (body : Flow H Unit) : Nat → Flow H Unit :=
  rounds do if H.truth (← value M cond) then turn body else return false

def testAfter (cond : Expr) (body : Flow H Unit) : Nat → Flow H Unit :=
  rounds do if ← turn body then return H.truth (← value M cond) else return false

def iterate (var : Var) (it : H.Value) (body : Flow H Unit) : Nat → Flow H Unit :=
  rounds do
    if H.truth (← call it "hasNext") then
      turn do
        let v ← call it "next"
        update (M.declare var v)
        body
    else return false

variable (n : Nat)

mutual

/-- What a tree does, with every loop granted `n` rounds. -/
def exec : Expr → Flow H Unit
  | .paren _ _ inner => exec inner
  | .annot _ _ _ inner => exec inner
  | .block _ _ exprs => execAll exprs
  | .ite _ _ cond onTrue onFalse => do
    if H.truth (← value M cond) then execPart onTrue else execPart onFalse
  | .loop _ .before cond body => testBefore M cond (execPart body) n
  | .loop _ .after cond body => testAfter M cond (execPart body) n
  | .forIn _ var iterator body => do
    let it ← value M iterator
    iterate M var it (execPart body) n
  | .switch _ _ subject cases default => do
    let v ← value M subject
    execCases v (execPart default) cases
  | .ret _ v => giveBack M v
  | .brk _ => exit .brk
  | .cont _ => exit .cont
  | .throw _ e => do exit (.throw (← value M e))
  | .tryCatch _ _ body handlers => handle (execPart body) (execHandlers · handlers)
  | e => attempt .throw (M.simple e)

def execAll : List Expr → Flow H Unit
  | [] => pure ()
  | e :: rest => do
    exec e
    execAll rest

def execPart : Option Expr → Flow H Unit
  | none => pure ()
  | some e => exec e

def execCases (v : H.Value) (default : Flow H Unit) : List (Case Expr) → Flow H Unit
  | [] => default
  | ⟨values, body⟩ :: rest => do
    if ← selects M v values then execPart body else execCases v default rest

/-- The last handler takes a thrown value. Without handlers it is thrown
again. -/
def execHandlers (v : H.Value) : List (Handler Expr) → Flow H Unit
  | [] => exit (.throw v)
  | [⟨var, body⟩] => do
    update (M.declare var v)
    execPart body
  | _ :: h :: rest => execHandlers v (h :: rest)

end

/-! ## Jumps are found -/

theorem exec_simple (h : e.isSimple = true) : exec M n e = attempt .throw (M.simple e) := by
  cases e <;> first | rfl | exact nomatch h

def Found (e : Expr) : Jump H.Value → Prop
  | .brk => e.breaksLoop = true
  | .cont => e.continuesLoop = true
  | .ret _ => e.canReturn = true
  | .throw _ => True

variable {M n} {P : Jump H.Value → Prop}

/-- What a search finds in a part it finds in the node. -/
theorem Found.of_child (hc : c ∈ e.children) (hfun : e.isFunction = false)
    (hloop : e.isLoop = false) {j : Jump H.Value} (h : Found c j) : Found e j := by
  have hstop : (e.isFunction || e.isLoop) = false := by rw [hfun, hloop]; rfl
  cases j with
  | brk => exact Expr.search_of_child hc hstop h
  | cont => exact Expr.search_of_child hc hstop h
  | ret => exact Expr.search_of_child hc hfun h
  | throw => trivial

def Leaves (e : Expr) : Jump H.Value → Prop
  | .brk | .cont => False
  | .ret _ => e.canReturn = true
  | .throw _ => True

theorem Leaves.found {j : Jump H.Value} (h : Leaves e j) : Found e j := by
  cases j with
  | brk | cont => exact h.elim
  | ret => exact h
  | throw => trivial

theorem exits_value (hP : ∀ v, P (.throw v)) (e : Expr) : Exits (value M e) P :=
  exits_attempt hP

theorem exits_selects (hP : ∀ v, P (.throw v)) (v : H.Value) (values : List Expr) :
    Exits (selects M v values) P := by
  induction values with
  | nil => exact exits_pure false
  | cons e rest ih =>
    refine (exits_value hP e).bind fun w => ?_
    split
    · exact exits_pure true
    · exact ih

theorem exits_execAll {es : List Expr} (h : ∀ e ∈ es, Exits (exec M n e) P) :
    Exits (execAll M n es) P := by
  induction es with
  | nil => exact exits_pure ()
  | cons e rest ih =>
    exact (h e mem_cons_self).bind fun _ => ih fun e he => h e (.tail _ he)

theorem exits_execPart {part : Option Expr} (h : ∀ e ∈ part.toList, Exits (exec M n e) P) :
    Exits (execPart M n part) P := by
  cases part with
  | none => exact exits_pure ()
  | some e => exact h e (.head _)

theorem exits_execCases (hP : ∀ v, P (.throw v)) {v : H.Value} {default : Flow H Unit}
    (hd : Exits default P) {cases : List (Case Expr)}
    (h : ∀ e ∈ cases.flatMap (fun c => c.values ++ c.body.toList), Exits (exec M n e) P) :
    Exits (execCases M n v default cases) P := by
  induction cases with
  | nil => exact hd
  | cons c rest ih =>
    rw [flatMap_cons] at h
    refine (exits_selects hP v c.values).bind fun hit => ?_
    split
    · exact exits_execPart fun e he =>
        h e (mem_append_left _ (mem_append_right _ he))
    · exact ih fun e he => h e (mem_append_right _ he)

theorem exits_execHandlers (hP : ∀ v, P (.throw v)) {handlers : List (Handler Expr)}
    (h : ∀ e ∈ handlers.filterMap Handler.body, Exits (exec M n e) P) (v : H.Value) :
    Exits (execHandlers M n v handlers) P := by
  induction handlers with
  | nil => exact exits_exit (hP v)
  | cons c rest ih =>
    have hc : Exits (execPart M n c.body) P := exits_execPart fun e he =>
      h e (mem_filterMap.2 ⟨c, mem_cons_self, Option.mem_toList.1 he⟩)
    cases rest with
    | nil => exact (exits_update _).bind fun _ => hc
    | cons =>
      refine ih fun e he => h e ?_
      obtain ⟨k, hk, hb⟩ := mem_filterMap.1 he
      exact mem_filterMap.2 ⟨k, mem_cons_of_mem _ hk, hb⟩

/-- The jumps of a node below a loop are its own, or leave it. -/
theorem Found.of_loopChild (hc : c ∈ e.children) (hfun : e.isFunction = false) {j : Jump H.Value}
    (h : Found c j) : j = .brk ∨ j = .cont ∨ Leaves e j := by
  cases j with
  | brk => exact .inl rfl
  | cont => exact .inr (.inl rfl)
  | ret => exact .inr (.inr (Expr.search_of_child hc hfun h))
  | throw => exact .inr (.inr trivial)

/-- A turn catches the breaks and continues of its body. -/
theorem exits_turn {body : Flow H Unit} (h : Exits body fun j => j = .brk ∨ j = .cont ∨ Leaves e j)
    : Exits (turn body) (Leaves e) := by
  refine h.after (fun _ => exits_pure true) fun j hj => ?_
  cases j with
  | brk => exact exits_pure false
  | cont => exact exits_pure true
  | ret v | throw v =>
    rcases hj with hj | hj | hj
    · exact nomatch hj
    · exact nomatch hj
    · exact exits_exit hj

/-- The body leaves the loop by jumps that leave it. -/
theorem exits_loopBody {body : Option Expr} (hsub : body.toList ⊆ e.children)
    (hfun : e.isFunction = false) (ih : ∀ c ∈ e.children, Exits (exec M n c) (Found c)) :
    Exits (execPart M n body) fun j => j = .brk ∨ j = .cont ∨ Leaves e j :=
  exits_execPart fun c hc => (ih c (hsub hc)).mono fun _ => Found.of_loopChild (hsub hc) hfun

theorem exits_testBefore {body : Flow H Unit} (h : Exits (turn body) (Leaves e)) :
    Exits (testBefore M cond body n) (Leaves e) := by
  refine exits_rounds ((exits_value (fun _ => trivial) cond).bind fun v => ?_) n
  split
  · exact h
  · exact exits_pure false

theorem exits_testAfter {body : Flow H Unit} (h : Exits (turn body) (Leaves e)) :
    Exits (testAfter M cond body n) (Leaves e) := by
  refine exits_rounds (h.bind fun again => ?_) n
  split
  · exact (exits_value (fun _ => trivial) cond).bind fun _ => exits_pure _
  · exact exits_pure false

theorem exits_iterate {var : Var} {it : H.Value} {body : Flow H Unit}
    (h : Exits body fun j => j = .brk ∨ j = .cont ∨ Leaves e j) :
    Exits (iterate M var it body n) (Leaves e) := by
  refine exits_rounds ((exits_attempt fun _ => trivial).bind fun v => ?_) n
  split
  · refine exits_turn ((exits_attempt fun _ => .inr (.inr trivial)).bind fun v => ?_)
    exact (exits_update _).bind fun _ => h
  · exact exits_pure false

/-- **The searches are sound.** A tree ends with a break, a continue or a
return only if the search for it finds one in the tree. -/
theorem exits_exec (M : TreeOracle H) (n : Nat) (e : Expr) : Exits (exec M n e) (Found e) := by
  induction e using Expr.induction_on_children with
  | step e ih =>
  have hthrow : ∀ v, Found e (.throw v : Jump H.Value) := fun _ => trivial
  -- Jumps of what stands below a node that is no loop leave the node.
  have hbelow : e.isFunction = false → e.isLoop = false →
      ∀ c ∈ e.children, Exits (exec M n c) (Found e) := fun hfun hloop c hc =>
    (ih c hc).mono fun _ => Found.of_child hc hfun hloop
  cases e with
  | paren _ _ inner | annot _ _ _ inner => exact hbelow rfl rfl inner (.head _)
  | block => exact exits_execAll (hbelow rfl rfl)
  | ite _ _ cond =>
    have hbelow := hbelow rfl rfl
    refine (exits_value hthrow cond).bind fun v => ?_
    split
    · exact exits_execPart fun c hc => hbelow c (.tail _ (mem_append_left _ hc))
    · exact exits_execPart fun c hc => hbelow c (.tail _ (mem_append_right _ hc))
  | loop loc test cond body =>
    have hbody := exits_turn (exits_loopBody (subset_cons_self cond body.toList) rfl ih)
    cases test with
    | before => exact (exits_testBefore hbody).mono fun _ => Leaves.found
    | after => exact (exits_testAfter hbody).mono fun _ => Leaves.found
  | forIn loc var iterator body =>
    have hbody := exits_loopBody (subset_cons_self iterator body.toList) rfl ih
    refine (exits_value hthrow iterator).bind fun it => ?_
    exact (exits_iterate hbody).mono fun _ => Leaves.found
  | switch _ _ subject =>
    have hbelow := hbelow rfl rfl
    refine (exits_value hthrow subject).bind fun v => exits_execCases hthrow ?_ fun c hc => ?_
    · exact exits_execPart fun c hc => hbelow c (.tail _ (mem_append_right _ hc))
    · exact hbelow c (.tail _ (mem_append_left _ hc))
  | ret loc v =>
    cases v with
    | none => exact exits_exit rfl
    | some e => exact (exits_value hthrow e).bind fun _ => exits_exit rfl
  | brk | cont => exact exits_exit rfl
  | throw _ e => exact (exits_value hthrow e).bind fun _ => exits_exit trivial
  | tryCatch _ _ body =>
    have hbelow := hbelow rfl rfl
    have hbody : Exits (execPart M n body) (Found _) :=
      exits_execPart fun c hc => hbelow c (mem_append_left _ hc)
    refine hbody.after (fun _ => exits_pure ()) fun j hj => ?_
    cases j with
    | throw v =>
      exact exits_execHandlers hthrow (fun c hc => hbelow c (mem_append_right _ hc)) v
    | brk | cont | ret => exact exits_exit hj
  | _ =>
    rw [exec_simple _ _ rfl]
    exact exits_attempt hthrow

end

end Control

end LuaBackend
