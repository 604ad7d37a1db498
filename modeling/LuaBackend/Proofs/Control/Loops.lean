import LuaBackend.Proofs.Control.Statements
import LuaBackend.Proofs.Lua.LocalNames

/-!
# Writing loops

A continue is a jump to a label at the end of the loop body. The label is
there if the search finds a continue of the loop in the body, so it is
there whenever the body continues.
-/

namespace LuaBackend.Control

open Emit Run Emission

variable {H : Host} {M : TreeOracle H} {L : CodeOracle H} {scope : Emit.Scope} {takes : Expr → Nat}
  {control : List Frame} {last : Bool} {flow : Nat → Flow H Unit}
variable {label : UInt32}
variable {loc : Loc}

/-- As the body of a loop, the code does in one turn what the flow does. -/
structure Turns (L : CodeOracle H) (control : List Frame) (flow : Nat → Flow H Unit)
    (code : Lua.Block) : Prop where
  runs : ∀ n env, Code.turn (Code.block L n code env) = mapExit (encode control) (turn (flow n))
  valid : ∀ r, Code.ValidBlock (Code.Reach.loop r) code

def Labelled (label : UInt32) (flow : Nat → Flow H Unit) : Prop :=
  ∀ n, Exits (flow n) fun j => j = .cont → label ≠ 0

/-- Code without a label is a loop body if nothing in it continues. -/
theorem Does.turns {code : Lua.Block} (h : Does L (.loop 0 :: control) last flow code)
    (hcont : Labelled 0 flow) : Turns L control flow code where
  runs n env := by
    rw [h.block, Code.turn, turn, mapExit, after_after, mapExit, after_after]
    refine (hcont n).after_congr (fun _ => rfl) fun j hj => ?_
    cases j with
    | cont => exact absurd rfl (hj rfl)
    | brk | ret | throw => rfl
  valid r := h.validBlock ⟨rfl, fun hne => absurd rfl hne⟩

/-- Code in a scope of its own in front of a label is a loop body. -/
theorem Does.turns_label {code : Lua.Block} (h : Does L (.loop label :: control) true flow code) :
    Turns L control flow [.scope code, .label label] where
  runs n env := by
    have hseq : Code.seq L n [.scope code, .label label] env =
        (do mapExit (encode (.loop label :: control)) (flow n); return env) := by
      rw [← h.block n env]
      exact bind_assoc _ _ _
    rw [Code.block, hseq, Code.turn, Code.closing, after_bind, after_after, mapExit, after_after,
      turn, mapExit, after_after]
    refine congrArg _ (funext fun r => ?_)
    rcases r with j | _
    · cases j with
      | cont =>
        -- The jump of a continue goes to the label.
        have hend : (if Code.endLabel [.scope code, .label label] = some label then pure ()
            else exit (.goto label) : CodeFlow H Unit) = pure () := if_pos rfl
        exact congrArg Code.turn hend
      | brk | ret | throw => rfl
    · rfl
  valid r := by
    refine ⟨fun v hv => ?_, h.validBlock ⟨rfl, fun _ => ?_⟩, trivial, trivial⟩
    · exact Lua.Stmt.noConfusion (List.mem_singleton.1 hv)
    · exact List.mem_append_left _ (.head _)

section Body

variable {body : Option Emission}

theorem writes_loopLabel : Writes scope 1 (loopLabel body) fun label =>
    ∀ e ∈ body, e.source.continuesLoop = true → label ≠ 0 := by
  unfold loopLabel
  split
  · exact writes_freshLabel.mono (Nat.le_refl _) fun label hne _ _ _ => hne
  · rename_i hnone
    refine writes_pure fun e he hcont => absurd ?_ hnone
    cases he
    exact hcont

/-- A label is there for every continue of the body. -/
theorem labelled_body (h : ∀ e ∈ body, e.source.continuesLoop = true → label ≠ 0) :
    Labelled label fun n => execPart M n (body.map source) := by
  intro n
  cases body with
  | none => exact exits_pure ()
  | some e =>
    refine (exits_exec M n e.source).mono fun j hj hcont => h e rfl ?_
    cases hcont
    exact hj

/-- The body is written inside the frame of its loop. -/
theorem writes_loopBody (hb : ∀ e ∈ body, Emits M L scope takes e)
    (hlabel : ∀ e ∈ body, e.source.continuesLoop = true → label ≠ 0) (closed : Bool) :
    Writes (inside scope control) (labelsPart takes (body.map source)) (loopBody body label closed)
      (Turns L control fun n => execPart M n (body.map source)) := by
  have hopen : ∀ e ∈ body, Open (.loop label :: control) e.source := fun e he =>
    open_loop (hlabel e he)
  rw [loopBody_eq]
  refine (writes_within (writes_bodyOf hb hopen false)).bind_free fun stmts hs => ?_
  split
  · rename_i hzero
    subst hzero
    have hcont := labelled_body (M := M) hlabel
    refine writes_pure ?_
    split
    · have hscope : Does L (.loop 0 :: control) true _ [.scope stmts] := hs.scoped
      exact hscope.turns hcont
    · exact hs.turns hcont
  · exact writes_pure hs.turns_label

end Body

section Cond

variable {c : Lua.Expr} {e : Expr} {code : Lua.Block}

section

variable (h : Turns L control flow code) (hc : ∀ env, Code.eval L env c = Code.given (M.value e))
include h hc

/-- A loop that tests before its body. -/
theorem Turns.loopWhile :
    Does L control last (fun n => testBefore M e (flow n) n) [.loopWhile c code] := by
  refine .singleton (fun n env => ?_) (fun r _ => h.valid r) (fun _ _ => nofun) fun _ => nofun
  refine (void_bind _ _).trans ((void_unit _).trans ?_)
  rw [testBefore, mapExit_rounds]
  refine congrArg (rounds · n) (eval_bind (hc env) fun v => ?_)
  rw [mapExit_ite, ← h.runs n env]
  rfl

/-- A loop that tests after its body: the test sees its label. -/
theorem Turns.loopUntilNot :
    Does L control last (fun n => testAfter M e (flow n) n) [.loopUntilNot code c] := by
  refine .singleton (fun n env => ?_) (fun r _ => h.valid r) (fun _ _ => nofun) fun _ => nofun
  refine (void_bind _ _).trans ((void_unit _).trans ?_)
  have htest : ∀ inner, (do return Code.truth (← Code.eval L inner c)) =
      mapExit (encode control) (do return H.truth (← value M e)) := fun inner =>
    eval_bind (hc inner) fun _ => rfl
  rw [testAfter, mapExit_rounds, mapExit_bind, ← h.runs n env, Code.turnThen_eq htest]
  refine congrArg (rounds · n) (congrArg _ (funext fun again => ?_))
  cases again <;> rfl

end

theorem Emits.loop {cond : Emission} {body : Option Emission} (test : LoopTest)
    (hc : EmitsValue M L scope takes cond) (hb : ∀ e ∈ body, Emits M L scope takes e) :
    Emits M L scope takes (.loop loc test cond body) := by
  refine ofStmt (fun _ => rfl) rfl fun control _ last => ?_
  cases test with
  | before =>
    refine writes_loopLabel.bind fun label hlabel => (hc control).bind fun c hcode => ?_
    exact (writes_loopBody hb hlabel false).indented.map fun code h => h.loopWhile hcode
  | after =>
    refine writes_loopLabel.bind fun label hlabel => ?_
    refine Writes.mono ((writes_loopBody hb hlabel (declaresLocal body)).indented.bind
      fun code h => (hc control).map fun c hcode => ?_) (Nat.le_of_eq (Nat.add_comm _ _)) fun _ h => h
    exact h.loopUntilNot hcode

end Cond

theorem turn_bind {α : Type} {x : Flow H α} (hx : Exits x fun j => ∃ v, j = .throw v)
    (f : α → Flow H Unit) : turn (x >>= f) = x >>= fun a => turn (f a) := by
  rw [turn, after_bind, bind_eq]
  refine hx.after_congr (fun _ => rfl) ?_
  rintro _ ⟨v, rfl⟩
  rfl

namespace Code

theorem turn_closing_bind {α β : Type} {x : CodeFlow H α} (hx : Exits x fun e => ∃ v, e = .throw v)
    (stmts : Lua.Block) (f : α → CodeFlow H β) :
    turn (closing stmts (x >>= f)) = x >>= fun a => turn (closing stmts (f a)) := by
  rw [turn, closing, after_bind, after_after, bind_eq]
  refine hx.after_congr (fun _ => rfl) ?_
  rintro _ ⟨v, rfl⟩
  rfl

theorem exits_given (f : H.State → Except H.Value H.Value × H.State) :
    Exits (given f) fun e => ∃ v, e = .throw v :=
  (exits_attempt fun v => ⟨.prog v, rfl⟩).bind fun _ => exits_pure _

end Code

/-- No variable of the program has the name of the iterator. -/
theorem localName_ne_iteratorName (v : Var) : Lua.localName v ≠ iteratorName :=
  Lua.localName_ne_reserved (by decide) (by decide) (by decide) v

def Declares (M : TreeOracle H) (L : CodeOracle H) : Prop :=
  ∀ var v, L.declare (Lua.localName var) v = M.declare var v

/-- The local is set, and no other local changes. -/
theorem Declares.declare (h : Declares M L) (env : Locals H.Value) (var : Var) (v : H.Value) :
    Code.declare L env (Lua.localName var) (.prog v) = (do update (M.declare var v); return env) := by
  rw [Code.declare, if_neg (localName_ne_iteratorName var), h]

section Iterator

variable {code : Lua.Block} {it : H.Value} {env : Locals H.Value} {n : Nat}

def nextStmt (var : Var) : Lua.Stmt :=
  .localVar (Lua.localName var) (some (.method (.name iteratorName) "next" []))

def iteratorLoop (var : Var) (code : Lua.Block) : Lua.Stmt :=
  .loopWhile (.method (.name iteratorName) "hasNext" []) (nextStmt var :: code)

section

variable (h : Turns L control flow code) (hdecl : Declares M L) (var : Var)
include h hdecl var

/-- The next element is taken at the top of the body. -/
theorem Turns.next (hit : env.iterator = some (.prog it)) :
    Code.turn (Code.block L n (nextStmt var :: code) env) = mapExit (encode control) (turn do
      let v ← call it "next"
      update (M.declare var v)
      flow n) := by
  have hseq : Code.seq L n (nextStmt var :: code) env = Code.given (H.invoke it "next") >>= fun v =>
        Code.declare L env (Lua.localName var) v >>= Code.seq L n code := by
    rw [← Code.eval_invoke L (env.get?_iterator.trans hit), ← bind_assoc]
    rfl
  have hcall : Exits (call it "next") fun j => ∃ v, j = .throw v := exits_attempt fun v => ⟨v, rfl⟩
  rw [Code.block, hseq, Code.turn_closing_bind (Code.exits_given _), turn_bind hcall]
  refine Code.given_bind fun v => ?_
  rw [hdecl.declare, bind_assoc, Code.turn_closing_bind (exits_update _),
    turn_bind (exits_update _), mapExit_bind, mapExit_update, ← h.runs n env]
  unfold Code.block Code.closing
  rw [nextStmt, Code.endLabel_localVar]
  rfl

/-- The loop over an iterator, round by round. -/
theorem Turns.iterate (hit : env.iterator = some (.prog it)) :
    void (Code.step L n (iteratorLoop var code) env) =
      mapExit (encode control) (Control.iterate M var it (flow n) n) := by
  refine (void_bind _ _).trans ((void_unit _).trans ?_)
  rw [Control.iterate, mapExit_rounds, Code.eval_invoke L (env.get?_iterator.trans hit)]
  refine congrArg (rounds · n) (Code.given_bind fun v => ?_)
  rw [mapExit_ite, ← h.next hdecl var hit]
  rfl

theorem Turns.forIn {c : Lua.Expr} {e : Expr} (hc : ∀ env, Code.eval L env c = Code.given (M.value e)) :
    Does L control true (fun n => value M e >>= fun v => Control.iterate M var v (flow n) n)
      [.localVar iteratorName (some c), iteratorLoop var code] where
  runs n env := by
    have hdeclare (v : LuaValue H.Value) : Code.declare L env iteratorName v =
        pure { env with iterator := some v } := if_pos rfl
    have hseq : void (Code.seq L n [.localVar iteratorName (some c),
        iteratorLoop var code] env) = Code.eval L env c >>= fun v =>
          void (Code.step L n (iteratorLoop var code) { env with iterator := some v }) := by
      rw [Code.seq, Code.step, bind_assoc, void_bind]
      refine congrArg _ (funext fun v => ?_)
      rw [hdeclare, pure_bind, Code.seq_singleton]
    rw [hseq]
    exact eval_bind (hc env) fun v => h.iterate hdecl var rfl
  valid r _ := ⟨trivial, (h.valid r).localVar _ _, trivial⟩
  returnsLast v hv := Lua.Stmt.noConfusion (List.mem_singleton.1 hv)
  goesOn := nofun
  unlabelled label hl := by
    rcases List.mem_cons.1 hl with hl | hl
    · cases hl
    · exact Lua.Stmt.noConfusion (List.mem_singleton.1 hl)

end

theorem Emits.forIn {iterator : Emission} {body : Option Emission} {var : Var}
    (hdecl : Declares M L) (hi : EmitsValue M L scope takes iterator)
    (hb : ∀ e ∈ body, Emits M L scope takes e) :
    Emits M L scope takes (.forIn loc var iterator body) := by
  refine ofStmt (fun _ => rfl) rfl fun control _ last => ?_
  refine writes_loopLabel.bind fun label hlabel => .indented ((hi control).bind fun it hcode => ?_)
  exact (writes_loopBody hb hlabel false).indented.map
    fun code h => (h.forIn hdecl var hcode).scoped

end Iterator

end LuaBackend.Control
