import LuaBackend.Proofs.Emit.Source

/-!
# What writing calls

Writing a node writes parts of it, one after the other, each in a scope of
its own, and fails as soon as one of them does. `Call.calls` lists these
calls in order, and `Call.run_tallies` says that nothing else in the
writing of a node touches the counter of labels, except that a loop with
a continue takes a label before anything else.
-/

namespace LuaBackend.Emit

open List Expr

variable {loc : Loc} {type : Ty} {last followed : Bool} {n : UInt32} {subject cond lhs rhs : Expr}
variable {op : BinaryOp} {part default : Option Expr} {ref : MemberRef}
variable {handlers : List (Handler Expr)}

/-- The ways in which a node is written. -/
inductive Way where
  | value
  | stmt (last : Bool)
  | body (followed : Bool)
  | orElse
  | receiver

def quietly {α : Type} (act : EmitM α) (scope : Scope) : EStateM Fault UInt32 Unit :=
  act scope >>= fun _ => pure ()

def Way.act (e : Emission) : Way → Scope → EStateM Fault UInt32 Unit
  | value => quietly e.value
  | stmt last => quietly (e.stmt last)
  | body followed => quietly (e.body followed)
  | orElse => quietly e.orElse
  | receiver =>
    match e.receiver with
    | none => fun _ => pure ()
    | some act => quietly act

/-- The writing of a node in a scope. -/
structure Call where
  part : Expr
  way : Way
  scope : Scope

def Call.run (c : Call) : EStateM Fault UInt32 Unit := c.way.act (emit c.part) c.scope

/-! ## The calls of a node -/

section Lists

variable (scope : Scope)

def callValues (es : List Expr) : List Call := es.map (⟨·, .value, scope⟩)

def callPart (way : Way) (part : Option Expr) : List Call := part.toList.map (⟨·, way, scope⟩)

def callBranch (way : Way) (part : Option Expr) : List Call :=
  if isEmptyBranch part then [] else callPart scope way part

def callSequence (last : Expr → Way) : List Expr → List Call
  | [] => []
  | [e] => [⟨e, last e, scope⟩]
  | e :: f :: rest => ⟨e, .stmt false, scope⟩ :: callSequence last (f :: rest)

def callReceiver (ref : MemberRef) (receiver : Option Expr) : List Call :=
  if ref.access = .static || ref.access = .enumCtor then []
  else callPart scope .value (receiver.filter fun r => !r.isSuper)

def callCode (args : List Expr) : List CodePiece → List Call
  | [] | .overflow :: _ => []
  | .char _ :: rest => callCode args rest
  | .arg position :: rest => callPart scope .value args[position]? ++ callCode args rest

def callIntrinsic (name : String) (args : List Expr) : List Call :=
  if name = "__lua__" then
    match args.head?.bind stringConst? with
    | none => []
    | some text => callCode scope args (codePieces args.length 0 text.toList)
  else if name = "__global__" then
    match args.head?.bind stringConst? with
    | none => []
    | some _ => callValues scope args.tail
  else if name = "__hash__" then
    match args with
    | [e] => callValues scope [e]
    | _ => []
  else if name = "__call__" then callValues scope args
  else []

def callMethod (callee : Expr) (ref : MemberRef) (receiver : Expr) (args : List Expr) : List Call :=
  if !Emission.isMethodCall ref then callValues scope (callee :: args)
  else if receiver.isSuper then if scope.base.isEmpty then [] else callValues scope args
  else if Lua.isName ref.target then ⟨callee, .receiver, scope⟩ :: callValues scope args
  else callValues scope (callee :: args)

def callCallee (callee : Expr) (args : List Expr) : List Call :=
  match callee.bare with
  | .ident _ _ name => callIntrinsic scope name args
  | .const _ _ .super => if !scope.inCtor || scope.base.isEmpty then [] else callValues scope args
  | .field _ _ ref (some receiver) => callMethod scope callee ref receiver args
  | _ => callValues scope (callee :: args)

end Lists

def Scope.function (scope : Scope) : Scope := { scope with control := [], inCtor := false }

def Scope.inside (scope : Scope) (frame : Frame) : Scope :=
  { scope with control := frame :: scope.control }

def callsOfValue (scope : Scope) : Expr → List Call
  | .field _ _ ref receiver => callReceiver scope ref receiver
  | .index _ _ base position => callValues scope [base, position]
  | .cast _ _ _ inner | .enumParam _ _ inner _ _ | .enumIndex _ inner => callValues scope [inner]
  | .object _ _ fields => callValues scope (fields.map FieldInit.value)
  | .array _ _ es | .new _ _ _ _ es => callValues scope es
  | .call _ _ callee args => callCallee scope callee args
  | .binary _ _ op lhs rhs => if op.isMutating then [] else callValues scope [lhs, rhs]
  | .unary _ _ op _ operand => if op.isStep then [] else callValues scope [operand]
  | .function _ _ params _ body =>
    callValues scope.function (params.filterMap Param.default) ++
      callPart scope.function (.body false) body
  | .block _ type es => callSequence scope.function (fun e =>
      if (!type.isUntyped && !type.isKind .void) && !e.bare.isStatementOnly then .value
      else .stmt true) es
  | _ => []

/-- The label of a loop that starts when the counter is `n`. -/
def labelOf (body : Option Expr) (n : UInt32) : UInt32 :=
  if body.any continuesLoop then n else 0

def callLoop (scope : Scope) (test : LoopTest) (head : Expr) (body : Option Expr) (label : UInt32) :
    List Call :=
  let inner := callPart (scope.inside (.loop label)) (.body false) body
  match test with
  | .before => callValues scope [head] ++ inner
  | .after => inner ++ callValues scope [head]

/-- The calls for a node as a statement, when the counter is `n`. -/
def callsOfStmt (scope : Scope) (n : UInt32) : Expr → List Call
  | .binary _ _ op lhs rhs =>
    match op with
    | .assign => callValues scope [lhs, rhs]
    | .compound op =>
      if op.isMutating then callValues scope [lhs] else callValues scope [lhs, lhs, rhs]
    | .nullCoalesce => []
    | _ => callValues scope [lhs, rhs]
  | .unary _ _ op _ operand =>
    if op.isStep then callValues scope [operand, operand] else callValues scope [operand]
  | .block _ _ es => callSequence scope (fun _ => .stmt true) es
  | .varDecl _ _ value | .ret _ value => callPart scope .value value
  | .throw _ value => callValues scope [value]
  | .ite _ _ cond onTrue onFalse =>
    callValues scope [cond] ++
      if isEmptyBranch onTrue then callBranch scope (.body false) onFalse
      else callPart scope (.body false) onTrue ++ callBranch scope .orElse onFalse
  | .switch _ _ subject cases default =>
    if cases.isEmpty then callBranch scope (.stmt false) default
    else (cases.flatMap fun c => callValues scope (c.values.flatMap fun v => [subject, v]) ++
      callPart scope (.body false) c.body) ++ callBranch scope (.body false) default
  | .loop _ test cond body => callLoop scope test cond body (labelOf body n)
  | .forIn _ _ iterator body => callLoop scope .before iterator body (labelOf body n)
  | .tryCatch _ _ body handlers => callPart (scope.inside .protect) (.body true) body ++
      callPart scope (.body false) (handlers.getLast?.bind Handler.body)
  | e => callsOfValue scope e

/-- The calls for a node after `else`. -/
def callsOfElse (scope : Scope) (n : UInt32) : Expr → List Call
  | .block loc type [only] =>
    match only.bare with
    | .ite .. => [⟨only, .orElse, scope⟩]
    | _ => callsOfStmt scope n (.block loc type [only])
  | .ite _ _ cond onTrue onFalse => callValues scope [cond] ++
      (callPart scope (.body false) onTrue ++ callBranch scope .orElse onFalse)
  | e => callsOfStmt scope n e

/-- The calls that a call makes when the counter is `n`. -/
def Call.calls (n : UInt32) (c : Call) : List Call :=
  match c.part with
  | .paren _ _ inner | .annot _ _ _ inner => [⟨inner, c.way, c.scope⟩]
  | e =>
    match c.way with
    | .value => callsOfValue c.scope e
    | .stmt _ => callsOfStmt c.scope n e
    | .body followed =>
      match e with
      | .block _ _ es => callSequence c.scope (fun _ => .stmt !followed) es
      | e => callsOfStmt c.scope n e
    | .orElse => callsOfElse c.scope n e
    | .receiver =>
      match e with
      | .field _ _ _ receiver => callPart c.scope .value receiver
      | _ => []

def needsLabel : Expr → Bool
  | .loop _ _ _ body | .forIn _ _ _ body => body.any continuesLoop
  | _ => false

def Call.startsLoop (c : Call) : Bool :=
  match c.way with
  | .value | .receiver => false
  | _ => needsLabel c.part

def Call.start (n : UInt32) (c : Call) : UInt32 := if c.startsLoop then n + 1 else n

def runAll : List Call → EStateM Fault UInt32 Unit
  | [] => pure ()
  | c :: rest => c.run >>= fun _ => runAll rest

theorem runAll_append (cs cs' : List Call) :
    runAll (cs ++ cs') = runAll cs >>= fun _ => runAll cs' := by
  induction cs with
  | nil => exact (pure_bind _ _).symm
  | cons c rest ih => rw [cons_append, runAll, runAll, ih, bind_assoc]

theorem runAll_singleton (c : Call) : runAll [c] = c.run := bind_pure c.run

section Follows

variable {α β : Type} {scope : Scope} {act : EmitM α} {f : α → EmitM β} {cs cs' : List Call}

def Covers (act : EmitM α) (scope : Scope) (cs : List Call) : Prop := quietly act scope = runAll cs

/-- With the counter at `n`, writing makes the calls from `m`, and may fail
on its own after them. -/
def Tallies (act : EmitM α) (scope : Scope) (cs : List Call) (n m : UInt32) : Prop :=
  quietly act scope n = runAll cs m ∨
    ∃ n' fault, runAll cs m = .ok () n' ∧ quietly act scope n = .error fault n'

def Follows (act : EmitM α) (scope : Scope) (cs : List Call) : Prop :=
  ∀ n, Tallies act scope cs n n

/-- Writing that only fails with its calls. -/
theorem Covers.follows (h : Covers act scope cs) : Follows act scope cs :=
  fun n => .inl (congrFun h n)

theorem follows_refuse {fault : Fault} : Follows (refuse fault : EmitM α) scope [] :=
  fun n => .inr ⟨n, fault, rfl, rfl⟩

theorem covers_pure {a : α} : Covers (pure a : EmitM α) scope [] := rfl

/-- The result of the first part is all that the second sees. -/
theorem quietly_bind : quietly (act >>= f) scope = act scope >>= fun a => quietly (f a) scope :=
  (congrArg (· >>= _) EmitM.run_bind_apply).trans (bind_assoc _ _ _)

/-- The calls of both parts, in order. -/
theorem Covers.bind (h : Covers act scope cs) (hf : ∀ a, Covers (f a) scope cs') :
    Covers (act >>= f) scope (cs ++ cs') := by
  calc quietly (act >>= f) scope
      = act scope >>= fun a => quietly (f a) scope := quietly_bind
    _ = act scope >>= fun _ => runAll cs' := by rw [funext fun a => hf a]
    _ = quietly act scope >>= fun _ => runAll cs' := by rw [quietly, bind_assoc]; rfl
    _ = runAll (cs ++ cs') := by rw [h, runAll_append]

/-- The second part may fail on its own. -/
theorem Covers.then (h : Covers act scope cs) (hf : ∀ a, Follows (f a) scope cs') :
    Follows (act >>= f) scope (cs ++ cs') := by
  intro n
  have hfirst : quietly act scope n = runAll cs n := congrFun h n
  rw [Tallies, quietly_bind, runAll_append]
  cases hact : act scope n with
  | error =>
    rw [quietly, run_bind_error hact] at hfirst
    exact .inl (by rw [run_bind_error hact, run_bind_error hfirst.symm])
  | ok a n₁ =>
    rw [quietly, run_bind_ok hact] at hfirst
    rw [run_bind_ok hact, run_bind_ok hfirst.symm]
    exact hf a n₁

theorem quietly_map {f : α → β} : quietly (act >>= fun a => pure (f a)) scope = quietly act scope :=
  quietly_bind

theorem Covers.map {f : α → β} (h : Covers act scope cs) :
    Covers (act >>= fun a => pure (f a)) scope cs := quietly_map.trans h

theorem Tallies.map {f : α → β} {m : UInt32} (h : Tallies act scope cs n m) :
    Tallies (act >>= fun a => pure (f a)) scope cs n m := by
  rw [Tallies, quietly_map]
  exact h

theorem Follows.map {f : α → β} (h : Follows act scope cs) :
    Follows (act >>= fun a => pure (f a)) scope cs := fun n => (h n).map

/-- Reading the scope makes no calls. -/
theorem quietly_read {f : Scope → EmitM α} :
    quietly (EmitM.scope >>= f) scope = quietly (f scope) scope :=
  congrArg (· >>= _) EmitM.run_scope_bind

theorem Covers.indented (h : Covers act scope cs) : Covers (indented act) scope cs := by
  rw [EmitM.indented_eq]
  exact h

theorem Tallies.indented {m : UInt32} (h : Tallies act scope cs n m) :
    Tallies (indented act) scope cs n m := by
  rw [EmitM.indented_eq]
  exact h

/-- The body of a loop or a protected block, in its scope. -/
theorem covers_within {frame : Frame} (h : Covers act (scope.inside frame) cs) :
    Covers (within frame act) scope cs := (congrArg (· >>= _) EmitM.run_within).trans h

/-- The body of a function, in its scope. -/
theorem covers_withinFunction (h : Covers act scope.function cs) :
    Covers (withinFunction act) scope cs := (congrArg (· >>= _) EmitM.run_withinFunction).trans h

theorem follows_read {f : Scope → EmitM α} (h : Follows (f scope) scope cs) :
    Follows (EmitM.scope >>= f) scope cs := by
  intro n
  rw [Tallies, quietly_read]
  exact h n

/-- Parts that make no calls leave the counter alone. -/
theorem Follows.bind (h : Follows act scope []) (hf : ∀ a, Follows (f a) scope []) :
    Follows (act >>= f) scope [] := by
  intro n
  have hfirst := h n
  rw [Tallies, quietly] at hfirst
  rw [Tallies, quietly_bind]
  cases hact : act scope n with
  | error =>
    rw [run_bind_error hact] at hfirst ⊢
    exact hfirst
  | ok a =>
    rw [run_bind_ok hact] at hfirst ⊢
    rcases hfirst with hsame | ⟨n', fault, -, hfault⟩
    · cases hsame
      exact hf a n
    · cases hfault

end Follows

open Emission

variable {e callee : Expr} {es args : List Expr} {scope : Scope}

theorem covers_value : Covers (emit e).value scope [⟨e, .value, scope⟩] :=
  (runAll_singleton ⟨e, .value, scope⟩).symm

theorem covers_head : Covers (emit e).head scope [⟨e, .value, scope⟩] := covers_value.map

/-- Parentheses around an operand make no calls. -/
theorem covers_operand {parent : Nat} {tighter : Bool} :
    Covers ((emit e).operand parent tighter) scope [⟨e, .value, scope⟩] := covers_value.map

/-- The elements of a list, in order. -/
theorem covers_values : Covers (values (emitList es)) scope (callValues scope es) := by
  induction es with
  | nil => exact covers_pure
  | cons e rest ih => exact covers_value.bind fun _ => ih.map

theorem covers_fieldValues {fields : List (FieldInit Expr)} : Covers
    (fieldValues (emitFields fields)) scope (callValues scope (fields.map FieldInit.value)) := by
  induction fields with
  | nil => exact covers_pure
  | cons field rest ih => exact covers_value.bind fun _ => ih.map

/-- A parameter without a default is not called. -/
theorem covers_defaults : ∀ {params : List (Param Expr)},
    Covers (defaults (emitParams params)) scope (callValues scope (params.filterMap Param.default))
  | [] => covers_pure
  | ⟨_, _, none⟩ :: rest => show Covers (defaults (emitParams rest)) _ _ from covers_defaults
  | ⟨_, _, some _⟩ :: _ => covers_value.bind fun _ => covers_defaults.map

theorem covers_bodyOf :
    Covers (bodyOf (emitOption part) followed) scope (callPart scope (.body followed) part) := by
  cases part with
  | none => exact covers_pure
  | some e => exact (runAll_singleton ⟨e, .body followed, scope⟩).symm

/-- The defaults come before the body. -/
theorem covers_functionWith {first : List String} {params : List (Param Expr)}
    {body : Option Expr} : Covers (functionWith first (emitParams params) (emitOption body)) scope
      (callValues scope.function (params.filterMap Param.default) ++
        callPart scope.function (.body false) body) := by
  have hinner : Covers (do
      let stmts ← defaults (emitParams params)
      return stmts ++ (← bodyOf (emitOption body) false)) scope.function _ :=
    covers_defaults.bind fun _ => covers_bodyOf.map
  exact (covers_withinFunction hinner.indented).map

/-- A static member and a member of the base class call nothing. -/
theorem follows_fieldValue {receiver : Option Expr} :
    Follows (fieldValue loc ref (emitOption receiver)) scope (callReceiver scope ref receiver) := by
  unfold fieldValue callReceiver
  split
  · split
    · exact follows_refuse
    · exact covers_pure.follows
  · cases receiver with
    | none => exact follows_refuse
    | some r =>
      rw [emitOption, Option.filter_some]
      dsimp only
      rw [source_emit]
      cases hsuper : r.isSuper with
      | true =>
        refine follows_read ?_
        split
        · exact follows_refuse
        · split
          · exact covers_pure.follows
          · exact covers_pure.follows
      | false =>
        refine Covers.follows ?_
        rw [← append_nil (callPart _ _ _)]
        refine covers_head.bind fun object => ?_
        split
        · exact covers_pure
        · exact covers_pure
        · exact covers_pure

/-- An operator that stores nothing writes both operands. -/
theorem Covers.operation {l r : Emission} {cs cs' : List Call} (hop : op.isMutating = false)
    (hl : Covers l.value scope cs) (hr : Covers r.value scope cs') :
    Covers (Emission.operation op type l r) scope (cs ++ cs') := by
  unfold Emission.operation
  split
  · exact hl.bind fun _ => hr.map
  · exact hl.map.bind fun _ => hr.map.map
  · rename_i hnone
    exact absurd hnone (rendering_ne_none hop _ _ _)

theorem covers_callValue :
    Covers (callValue (emit callee) (emitList args)) scope (callValues scope (callee :: args)) :=
  covers_head.bind fun _ => covers_values.map

/-- A placeholder calls the argument it names, if there is one. -/
theorem follows_fillCode : ∀ {pieces : List CodePiece},
    Follows (fillCode (emitList args) pieces) scope (callCode scope args pieces)
  | [] => covers_pure.follows
  | .overflow :: _ => follows_refuse
  | .char _ :: _ => follows_fillCode.map
  | .arg position :: rest => by
    rw [fillCode, callCode, emitList_eq_map, getElem?_map, ← emitList_eq_map]
    cases args[position]? with
    | none => exact follows_fillCode
    | some => exact covers_value.then fun _ => follows_fillCode.map

/-- Each of the named functions has its own rule for its arguments. -/
theorem follows_intrinsic {nameLoc : Loc} {name : String} :
    Follows (intrinsic loc name nameLoc (emitList args)) scope (callIntrinsic scope name args) := by
  unfold intrinsic callIntrinsic
  rw [head?_emitList]
  split
  · cases args.head?.bind stringConst? with
    | none => exact follows_refuse
    | some =>
      rw [emitList_eq_map, length_map, ← emitList_eq_map]
      exact follows_fillCode.map
  · split
    · cases args.head?.bind stringConst? with
      | none => exact follows_refuse
      | some =>
        rw [tail_emitList]
        exact covers_values.map.follows
    · split
      · cases args with
        | nil => exact follows_refuse
        | cons e rest =>
          cases rest with
          | nil => exact covers_value.map.follows
          | cons => exact follows_refuse
      · split
        · cases args with
          | nil => exact follows_refuse
          | cons => exact covers_callValue.follows
        · exact follows_refuse

/-- The base constructor is called from a constructor only. -/
theorem follows_callSuper : Follows (callSuper loc (emitList args)) scope
    (if !scope.inCtor || scope.base.isEmpty then [] else callValues scope args) := by
  refine follows_read ?_
  split
  · rename_i hctor
    rw [hctor]
    exact follows_refuse
  · rename_i hctor
    rw [Bool.eq_false_iff.2 hctor, Bool.false_or]
    split
    · exact follows_refuse
    · exact covers_values.map.follows

/-- The receiver of a method call is written, not the member. -/
theorem follows_callMember {loc' : Loc} {receiver : Expr}
    (hbare : callee.bare = .field loc' type ref (some receiver)) :
    Follows (callMember loc (emit callee) ref receiver (emitList args)) scope
      (callMethod scope callee ref receiver args) := by
  obtain ⟨object, hobject⟩ := exists_receiver_of_bare hbare
  have hreceiver : Covers object scope [⟨callee, .receiver, scope⟩] := by
    rw [Covers, runAll_singleton, Call.run, Way.act, hobject]
  unfold Emission.callMember callMethod
  rw [hobject]
  dsimp only
  split
  · exact covers_callValue.follows
  · split
    · refine follows_read ?_
      split
      · exact follows_refuse
      · exact covers_values.map.follows
    · split
      · exact (hreceiver.bind fun _ => covers_values.map).follows
      · exact covers_callValue.follows

/-- What is called decides how it is written. -/
theorem follows_call :
    Follows (emit (.call loc type callee args)).value scope (callCallee scope callee args) := by
  simp only [emit, Emission.call, ofCall, Emission.ofStmt, source_emit]
  unfold callCallee
  cases hbare : callee.bare with
  | ident => exact follows_intrinsic
  | const loc type value =>
    cases value with
    | super => exact follows_callSuper
    | _ => exact covers_callValue.follows
  | field loc type ref receiver =>
    cases receiver with
    | none => exact covers_callValue.follows
    | some => exact follows_callMember hbare
  | _ => exact covers_callValue.follows

/-! ## Statements -/

theorem covers_stmt : Covers ((emit e).stmt last) scope [⟨e, .stmt last, scope⟩] :=
  (runAll_singleton ⟨e, .stmt last, scope⟩).symm

theorem covers_sequence : ∀ es : List Expr, Covers (sequence followed (emitList es)) scope
      (callSequence scope (fun _ => .stmt !followed) es)
  | [] => covers_pure
  | [_] => covers_stmt
  | _ :: f :: rest => covers_stmt.bind fun _ => (covers_sequence (f :: rest)).map

/-- The last statement may be returned as a value. -/
theorem covers_returning {wanted : Bool} : ∀ es : List Expr,
    Covers (returning wanted (emitList es)) scope (callSequence scope (fun e =>
      if wanted && !e.bare.isStatementOnly then .value else .stmt true) es)
  | [] => covers_pure
  | [e] => by
    rw [emitList, emitList, returning, callSequence, source_emit]
    split
    · exact covers_value.map
    · exact covers_stmt
  | _ :: f :: rest => covers_stmt.bind fun _ => (covers_returning (f :: rest)).map

theorem covers_orElse : Covers (emit e).orElse scope [⟨e, .orElse, scope⟩] :=
  (runAll_singleton ⟨e, .orElse, scope⟩).symm

/-- A missing `else` branch is not written. -/
theorem covers_elseTail :
    Covers (elseTail (emitOption part)) scope (callBranch scope .orElse part) := by
  cases part with
  | none => exact covers_pure
  | some =>
    rw [emitOption, elseTail, source_emit, callBranch]
    split
    · exact covers_pure
    · exact covers_orElse

/-- An empty branch is not written; the condition always is. -/
theorem covers_branch {onTrue onFalse : Option Expr} :
    Covers (branch (emit cond) (emitOption onTrue) (emitOption onFalse)) scope
      (callValues scope [cond] ++
        if isEmptyBranch onTrue then callBranch scope (.body false) onFalse
        else callPart scope (.body false) onTrue ++ callBranch scope .orElse onFalse) := by
  unfold branch callBranch
  rw [map_source_emitOption, map_source_emitOption]
  refine covers_value.bind fun c => ?_
  dsimp only
  cases isEmptyBranch onTrue with
  | true =>
    cases isEmptyBranch onFalse with
    | true => exact covers_pure
    | false => exact covers_bodyOf.indented.map
  | false => exact covers_bodyOf.indented.bind fun _ => covers_elseTail.map

theorem covers_caseTest {value : Expr} :
    Covers (caseTest (emit subject) (emit value)) scope (callValues scope [subject, value]) :=
  covers_operand.bind fun _ => covers_operand.map

/-- The subject is written again for each value. -/
theorem covers_caseTestsAfter : ∀ {values : List Expr} {test : Lua.Expr},
    Covers (caseTestsAfter (emit subject) test (emitList values)) scope
      (callValues scope (values.flatMap fun v => [subject, v]))
  | [], _ => covers_pure
  | _ :: _, _ => covers_caseTest.bind fun _ => covers_caseTestsAfter

theorem covers_caseCond {values : List Expr} :
    Covers (caseCond (emit subject) (emitList values)) scope
      (callValues scope (values.flatMap fun v => [subject, v])) := by
  cases values with
  | nil => exact covers_pure
  | cons => exact covers_caseTest.bind fun _ => covers_caseTestsAfter

/-- The tests of a case come before its body. -/
theorem covers_caseArms {cases : List (Case Expr)} :
    Covers (caseArms (emit subject) (emitCases cases)) scope (cases.flatMap fun c =>
      callValues scope (c.values.flatMap fun v => [subject, v]) ++
        callPart scope (.body false) c.body) := by
  induction cases with
  | nil => exact covers_pure
  | cons c rest ih =>
    rw [flatMap_cons, append_assoc]
    exact covers_caseCond.bind fun _ => covers_bodyOf.indented.bind fun _ => ih.map

theorem covers_defaultArm :
    Covers (defaultArm (emitOption default)) scope (callBranch scope (.body false) default) := by
  unfold defaultArm callBranch
  rw [map_source_emitOption]
  split
  · exact covers_pure
  · exact covers_bodyOf.indented.map

/-- A switch without cases is its default. -/
theorem covers_switch {cases : List (Case Expr)} (n : UInt32) :
    Covers ((emit (.switch loc type subject cases default)).stmt last) scope
      (callsOfStmt scope n (.switch loc type subject cases default)) := by
  cases cases with
  | nil =>
    cases default with
    | none => exact covers_pure
    | some e =>
      change Covers (if isEmptyBranch (some (emit e).source) then _ else _) scope (callBranch _ _ _)
      rw [source_emit, callBranch]
      split
      · exact covers_pure
      · exact covers_stmt
  | cons => exact covers_caseArms.bind fun _ => covers_defaultArm.map

/-- Only the last handler is written. -/
theorem covers_handlerArm : Covers (handlerArm (emitHandlers handlers)) scope
    (callPart scope (.body false) (handlers.getLast?.bind Handler.body)) := by
  unfold handlerArm
  rw [emitHandlers_eq_map, getLast?_map]
  cases handlers.getLast? with
  | none => exact covers_pure
  | some =>
    simp only [Option.map_some, ← emitOption_eq_map]
    exact covers_bodyOf.indented.map

/-- An arm of a protected call makes no calls. -/
theorem follows_armIf {needed : Bool} {cond : Lua.Expr} {stmt : EmitM Lua.Stmt}
    (h : Follows stmt scope []) : Follows (armIf needed cond stmt) scope [] := by
  cases needed with
  | true => exact fun n => (h n).indented.map
  | false => exact covers_pure.follows

theorem follows_breakStmt : Follows (breakStmt loc) scope [] := by
  refine follows_read ?_
  split
  · exact follows_refuse
  · exact covers_pure.follows
  · exact covers_pure.follows

theorem follows_continueStmt : Follows (continueStmt loc) scope [] := by
  refine follows_read ?_
  split
  · exact follows_refuse
  · exact covers_pure.follows
  · split
    · exact follows_refuse
    · exact covers_pure.follows

theorem follows_jump {source : Expr} {stmt : EmitM Lua.Stmt} (h : Follows stmt scope []) :
    Follows ((jump source stmt).stmt last) scope [] := by
  refine h.bind fun s => ?_
  split
  · exact covers_pure.follows
  · exact covers_pure.follows

/-- The body comes before the handler and the arms for jumps. -/
theorem follows_tryCatch {body : Option Expr} (n : UInt32) :
    Follows ((emit (.tryCatch loc type body handlers)).stmt last) scope
      (callsOfStmt scope n (.tryCatch loc type body handlers)) := by
  refine (covers_within covers_bodyOf.indented).then fun _ => ?_
  rw [← append_nil (callPart scope _ _)]
  exact covers_handlerArm.then fun _ => (follows_armIf follows_breakStmt).bind fun _ =>
    (follows_armIf follows_continueStmt).bind fun _ =>
      (follows_armIf covers_pure.follows).map

/-- A label is taken only for a body with a continue. -/
theorem loopLabel_run (body : Option Expr) (n : UInt32) :
    (loopLabel (emitOption body) : EmitM _) scope n =
    .ok (labelOf body n) (if body.any continuesLoop then n + 1 else n) := by
  have hany : ((emitOption body).any fun e => e.source.continuesLoop) = body.any continuesLoop := by
    cases body with
    | none => rfl
    | some e => exact congrArg continuesLoop (source_emit e)
  unfold loopLabel labelOf
  rw [hany]
  split
  · rfl
  · rfl

/-- A loop takes its label before anything else. -/
theorem tallies_labelled {α : Type} {body : Option Expr} {f : UInt32 → EmitM α}
    (cs : UInt32 → List Call) (h : ∀ label, Covers (f label) scope (cs label)) :
    Tallies (loopLabel (emitOption body) >>= f) scope (cs (labelOf body n)) n
      (if body.any continuesLoop then n + 1 else n) := by
  refine .inl ?_
  rw [quietly_bind, ← h]
  exact run_bind_ok (loopLabel_run body n)

/-- The body is written inside the frame of its loop. -/
theorem covers_loopBody {body : Option Expr} {label : UInt32} {closed : Bool} :
    Covers (loopBody (emitOption body) label closed) scope
      (callPart (scope.inside (.loop label)) (.body false) body) := by
  rw [loopBody_eq, ← append_nil (callPart _ _ _)]
  refine (covers_within covers_bodyOf).bind fun stmts => ?_
  split
  · exact covers_pure
  · exact covers_pure

/-- The test comes before or after the body. -/
theorem tallies_loop {test : LoopTest} {body : Option Expr} :
    Tallies ((emit (.loop loc test cond body)).stmt last) scope
      (callsOfStmt scope n (.loop loc test cond body)) n
      (if body.any continuesLoop then n + 1 else n) := by
  refine tallies_labelled (callLoop scope test cond body) fun label => ?_
  cases test with
  | before => exact covers_value.bind fun _ => covers_loopBody.indented.map
  | after => exact covers_loopBody.indented.bind fun _ => covers_value.map

theorem tallies_forIn {var : Var} {iterator : Expr} {body : Option Expr} :
    Tallies ((emit (.forIn loc var iterator body)).stmt last) scope
      (callsOfStmt scope n (.forIn loc var iterator body)) n
      (if body.any continuesLoop then n + 1 else n) :=
  tallies_labelled (callLoop scope .before iterator body) fun _ =>
    (covers_value.bind fun _ => covers_loopBody.indented.map).indented

/-! ## Nodes -/

theorem follows_binary : Follows (emit (.binary loc type op lhs rhs)).value scope
    (if op.isMutating then [] else callValues scope [lhs, rhs]) := by
  have hvalue (hop : op.isMutating = false) : Covers (operation op type (emit lhs) (emit rhs))
      scope (callValues scope [lhs, rhs]) := .operation hop covers_value covers_value
  cases op with
  | assign | compound | nullCoalesce => exact follows_refuse
  | _ => exact (hvalue rfl).follows

/-- The calls for a value, node by node. -/
theorem follows_value (e : Expr) (scope : Scope) (n : UInt32) :
    Follows (emit e).value scope (Call.calls n ⟨e, .value, scope⟩) := by
  cases e with
  | const loc type value =>
    cases value with
    | super => exact follows_refuse
    | _ => exact covers_pure.follows
  | field => exact follows_fieldValue
  | index => exact (covers_head.bind fun _ => covers_value.map).follows
  | paren => exact covers_value.map.follows
  | annot => exact covers_value.follows
  | object => exact covers_fieldValues.map.follows
  | array | new => exact covers_values.map.follows
  | call => exact follows_call
  | binary => exact follows_binary
  | unary loc type op =>
    cases op with
    | not | neg => exact covers_operand.map.follows
    | negBits => exact covers_value.map.follows
    | increment | decrement => exact follows_refuse
  | function => exact covers_functionWith.follows
  | block loc type es =>
    exact (covers_withinFunction (covers_returning es).indented).map.follows
  | cast loc type checked =>
    cases checked with
    | none => exact covers_value.follows
    | some => exact covers_value.map.follows
  | enumParam | enumIndex => exact covers_head.map.follows
  | ident => exact follows_refuse
  | omitted | «local» | typeRef => exact covers_pure.follows
  | varDecl loc var value | ret loc value =>
    cases value with
    | _ => exact follows_refuse
  | _ => exact follows_refuse

/-- The target is written twice: to be read and to be stored into. -/
theorem follows_update : Follows (update op type (emit lhs) (emit rhs)) scope
    (if op.isMutating then callValues scope [lhs] else callValues scope [lhs, lhs, rhs]) := by
  cases hop : op.isMutating with
  | true =>
    refine covers_value.then fun _ => ?_
    cases op with
    | assign | compound | nullCoalesce => exact follows_refuse
    | _ => cases hop
  | false =>
    exact (covers_value.bind fun _ => (Covers.operation hop covers_value covers_value).map).follows

/-- The calls for a statement, node by node. -/
theorem tallies_stmt (e : Expr) (scope : Scope) (last : Bool) (n : UInt32) :
    Tallies ((emit e).stmt last) scope (Call.calls n ⟨e, .stmt last, scope⟩) n
      (Call.start n ⟨e, .stmt last, scope⟩) := by
  have hvalue := follows_value e scope n
  cases e with
  | binary loc type op =>
    cases op with
    | assign => exact (covers_value.bind fun _ => covers_value.map).follows n
    | compound => exact follows_update n
    | nullCoalesce => exact follows_refuse n
    | _ => exact hvalue.map n
  | unary loc type op =>
    cases op with
    | increment | decrement =>
      exact (covers_value.bind fun _ =>
        (Covers.operation (by rfl) covers_value covers_pure).map).follows n
    | _ => exact hvalue.map n
  | block loc type es =>
    cases es with
    | nil => exact covers_pure.follows n
    | cons e rest => exact (covers_sequence (e :: rest)).indented.map.follows n
  | varDecl loc var value | ret loc value =>
    cases value with
    | none => exact covers_pure.follows n
    | some => exact covers_value.map.follows n
  | throw => exact covers_value.map.follows n
  | ite => exact covers_branch.follows n
  | switch => exact (covers_switch n).follows n
  | tryCatch => exact follows_tryCatch n n
  | loop => exact tallies_loop
  | forIn => exact tallies_forIn
  | brk => exact follows_jump follows_breakStmt n
  | cont => exact follows_jump follows_continueStmt n
  | paren | annot => exact covers_stmt.follows n
  | omitted => exact covers_pure.follows n
  | _ => exact hvalue.map n

/-- A block as a body needs no block around it. -/
theorem tallies_body (e : Expr) (scope : Scope) (followed : Bool) (n : UInt32) :
    Tallies ((emit e).body followed) scope (Call.calls n ⟨e, .body followed, scope⟩) n
      (Call.start n ⟨e, .body followed, scope⟩) := by
  have hstmt := tallies_stmt e scope (!followed) n
  cases e with
  | block loc type es => exact (covers_sequence es).follows n
  | paren loc type inner | annot loc type name inner =>
    exact .inl (congrFun (runAll_singleton ⟨inner, .body followed, scope⟩).symm n)
  | varDecl _ _ part | ret _ part | binary _ _ part | unary _ _ part =>
    cases part with
    | _ => exact hstmt
  | _ => exact hstmt

/-- A conditional alone in a block continues the chain. -/
theorem covers_blockElse :
    Covers (emit (.block loc type es)).orElse scope (callsOfElse scope n (.block loc type es)) := by
  have hbody : Covers (indented (sequence false (emitList es))) scope _ :=
    (covers_sequence es).indented
  cases es with
  | nil => exact hbody.map
  | cons only rest =>
    cases rest with
    | nil =>
      simp only [emit, Emission.block, emitList, source_emit, callsOfElse]
      cases only.bare with
      | ite => exact covers_orElse
      | _ => exact hbody.map
    | cons => exact hbody.map

/-- The calls after `else`, node by node. -/
theorem tallies_orElse (e : Expr) (scope : Scope) (n : UInt32) :
    Tallies (emit e).orElse scope (Call.calls n ⟨e, .orElse, scope⟩) n
      (Call.start n ⟨e, .orElse, scope⟩) := by
  have hstmt := tallies_stmt e scope true n
  cases e with
  | block => exact covers_blockElse.follows n
  | ite =>
    exact (covers_value.bind fun _ => covers_bodyOf.indented.bind fun _ => covers_elseTail.map).follows n
  | paren | annot => exact covers_orElse.follows n
  | varDecl _ _ part | ret _ part | binary _ _ part | unary _ _ part =>
    cases part with
    | _ => exact hstmt.indented.map
  | _ => exact hstmt.indented.map

theorem covers_receiver (e : Expr) (scope : Scope) (n : UInt32) :
    Way.receiver.act (emit e) scope = runAll (Call.calls n ⟨e, .receiver, scope⟩) := by
  cases e with
  | field loc type ref receiver =>
    cases receiver with
    | none => rfl
    | some => exact covers_head
  | paren loc type inner | annot loc type name inner =>
    exact (runAll_singleton ⟨inner, .receiver, scope⟩).symm
  | varDecl _ _ part | ret _ part | binary _ _ part | unary _ _ part =>
    cases part with
    | _ => rfl
  | _ => rfl

/-- **What writing calls.** A call takes a label if it starts a loop with a
continue, makes its calls, and may fail on its own after them. -/
theorem Call.run_tallies (c : Call) (n : UInt32) : c.run n = runAll (c.calls n) (c.start n) ∨
    ∃ n' fault, runAll (c.calls n) (c.start n) = .ok () n' ∧ c.run n = .error fault n' := by
  obtain ⟨e, way, scope⟩ := c
  cases way with
  | value => exact follows_value e scope n n
  | stmt last => exact tallies_stmt e scope last n
  | body followed => exact tallies_body e scope followed n
  | orElse => exact tallies_orElse e scope n
  | receiver => exact .inl (congrFun (covers_receiver e scope n) n)

end LuaBackend.Emit
