import LuaBackend.Compile.Lower
import LuaBackend.Emit.Decl
import LuaBackend.Nulls.Check

/-!
# Running a compilation

Declarations are compiled one after the other: null is checked, the code
is lowered and written, and the hooks of the declaration's kind are run
over the text. A failure is reported and leaves the declaration without
text; the others are compiled all the same.

Hooks may start further runs, and their hooks may do so too. Nothing
bounds how deeply runs are nested, so a run may go on for ever. Everything
that runs hooks is therefore said in terms of how hooks are run, `Fold`,
and `foldFrom` ties the knot.
-/

namespace LuaBackend.Compile

/-- How the hooks of a kind are run over a text, from a position on. -/
abbrev Fold := HookKind → Subject → Nat → String → Work String

/-- Runs the hooks of a kind over a text. -/
def foldKind (fold : Fold) (kind : HookKind) (subject : Subject) (text : String) : Work String :=
  whileActive (fold kind subject 0 text)

/-- Runs hooks for declarations over a text. -/
def runDeclHooks (fold : Fold) (kind : HookKind) (decl : Decl) (text : String) : Work String := do
  if kind = .expression then
    throw (.internal .argument "expression hooks run through runExpression")
  foldKind fold kind (.decl decl) text

/-- Runs the hooks for expressions over a text. -/
def runExprHooks (fold : Fold) (e : Expr) (text : String) : Work String :=
  foldKind fold .expression (.expr e) text

/-- Writes code as text, starting from a fresh context. -/
def write (act : Emit.Write String) : Work String := do
  let layout : Lua.Layout := { unit := (← get).options.indent }
  match act { layout } with
  | .ok text _ => return text
  | .error fault _ => throw (.ofEmit fault)

/-- Violations as diagnostics of the severity that is asked for. -/
def nullDiagnostics (violations : Nullability → List Nulls.Violation) : Work (List Diagnostic) := do
  let session ← get
  return (violations session.admits).map (Nulls.Violation.diagnostic session.options.nullSeverity)

/-- Compiles a unit whose text is made by `act`. What fails becomes a
diagnostic at the position of the unit. -/
def guarded (path : String) (loc : Loc) (act : Work String) :
    Work (Output × List Diagnostic) := fun session =>
  match act session with
  | some (.ok text, session) => some (.ok ({ path, text, ok := true }, []), session)
  | some (.error failure, session) =>
    match failure.diagnostic? loc with
    | some d => some (.ok ({ path }, [d]), session)
    | none => some (.error failure, session)
  | none => none

/-- The null check of a unit, if it is asked for. -/
def nullPhase (unit : String) (violations : Nullability → List Nulls.Violation) :
    Work (List Diagnostic) := do
  if (← get).options.checkNulls then
    logPhase "Phase 1: Nullability" unit
    nullDiagnostics violations
  else return []

/-- The null check of a declaration. -/
def declNulls (decl : Decl) : Work (List Diagnostic) := do
  let path := decl.path.dotted
  if (← get).options.logTrees then
    log ("=== AST " ++ path ++ " ===\n" ++ decl.dump ++ "=== End AST ===\n")
  nullPhase path fun admits => Nulls.declViolations admits decl

/-- Lowers a unit and writes it, for its hooks. -/
def unitCode {α : Type} (unit : String) (lower : LowerM α) (code : α → Emit.Write String) :
    Work String := do
  let (lowered, _) ← lower.run TempSupply.all
  logPhase "Phase 5: Printing" unit
  let text ← write (code lowered)
  logPhase "Phase 6: Hooks" unit
  return text

/-- The text of a declaration. -/
def declText (fold : Fold) (decl : Decl) : Work String := do
  let text ← unitCode decl.path.dotted (lowerDecl decl) Emit.declaration
  runDeclHooks fold (.ofDecl decl) decl text

/-- Compiles a declaration. -/
def compileDecl (fold : Fold) (decl : Decl) : Work (Output × List Diagnostic) := do
  let nulls ← declNulls decl
  let (output, failures) ← guarded decl.path.dotted decl.loc (declText fold decl)
  return (output, nulls ++ failures)

/-- Compiles declarations in order, skipping the missing ones. -/
def compileEach (fold : Fold) : List (Option Decl) → Work (List Output × List Diagnostic)
  | [] => return ([], [])
  | none :: rest => compileEach fold rest
  | some decl :: rest => do
    let (output, ds) ← compileDecl fold decl
    let (outputs, more) ← compileEach fold rest
    return (output :: outputs, ds ++ more)

/-- A run over declarations. -/
def compileWith (fold : Fold) (decls : List (Option Decl)) : Work Result :=
  whileActive do
    let (outputs, entries) ← compileEach fold decls
    logPhase "Done" ""
    return { outputs, report := { entries } }

/-- The text of an expression. -/
def exprText (fold : Fold) (e : Expr) : Work String := do
  let text ← unitCode "<expression>" (lowerCode e none) Emit.statements
  runExprHooks fold e text

/-- A run over one expression. -/
def compileExprWith (fold : Fold) (e : Expr) : Work Result :=
  whileActive do
    let nulls ← nullPhase "<expression>" fun admits => Nulls.violations admits .untyped e
    let (output, failures) ← guarded "" e.loc (exprText fold e)
    return { outputs := [output], report := { entries := nulls ++ failures } }

/-! ## Hooks -/

/-- Does what a session is asked to do. -/
def Operation.work (fold : Fold) : Operation Hook → Work Answer
  | register kind hook => do
    registerHook kind hook
    return .done
  | registerExpr hook => do
    registerExprHook hook
    return .done
  | setNullability admits => do
    Compile.setNullability admits
    return .done
  | note text => do
    record (.note text)
    return .done
  | run kind text decl => return .text (← runDeclHooks fold kind decl text)
  | runExpression text e => return .text (← runExprHooks fold e text)
  | compile decls => return .result (← compileWith fold decls)
  | compileExpr e => return .result (← compileExprWith fold e)

/-- Does what a hook does. -/
def perform (fold : Fold) : Script → Work String
  | .done text => return text
  | .fail failure => throw failure
  | .look next => do perform fold (next (← get).view)
  | .ask op next => do perform fold (next (← attempt (op.work fold)))

/-- Runs the hook at a position, if there is one by now, and then those
after it. -/
def foldStep (fold : Fold) : Fold := fun kind subject position text => do
  match ((← get).chain.ofKind kind)[position]? with
  | none => return text
  | some hook =>
    recordIf Chain.traceBefore (.before kind position)
    let text ← perform fold (hook subject text)
    recordIf Chain.traceAfter (.after kind position)
    fold kind subject (position + 1) text

/-! Work that is `Below` other work ends as the other does, or not at all.
All that is said here in terms of a `Fold` is above what is said in terms
of a lesser one, so there is a least `Fold` that is its own step. -/

section Below

variable {α β : Type} {x y : Work α} {fold other : Fold}

/-- What comes second is done if what comes first succeeds. -/
theorem bind_run (x : Work α) (f : α → Work β) (session : Session) :
    (x >>= f) session = match x session with
      | some (.ok a, session) => f a session
      | some (.error failure, session) => some (.error failure, session)
      | none => none := by
  change Option.bind (x session) _ = _
  rcases x session with _ | ⟨_ | _, _⟩ <;> rfl

/-- The work does not end, or ends as the other one does. -/
def Below (x y : Work α) : Prop := ∀ session, x session = none ∨ x session = y session

theorem Below.refl (x : Work α) : Below x x := fun _ => .inr rfl

theorem Below.bind {f g : α → Work β} (h : Below x y) (hf : ∀ a, Below (f a) (g a)) :
    Below (x >>= f) (y >>= g) := by
  intro session
  rw [bind_run, bind_run]
  rcases h session with hnone | heq
  · rw [hnone]
    exact .inl rfl
  · rw [heq]
    rcases y session with _ | ⟨_ | a, session'⟩
    · exact .inl rfl
    · exact .inr rfl
    · exact hf a session'

theorem Below.whileActive (h : Below x y) : Below (whileActive x) (whileActive y) := by
  intro session
  unfold Compile.whileActive
  rcases h session.enter with hnone | heq
  · rw [hnone]
    exact .inl rfl
  · rw [heq]
    exact .inr rfl

theorem Below.attempt (h : Below x y) : Below (attempt x) (attempt y) := by
  intro session
  unfold Compile.attempt
  rcases h session with hnone | heq
  · rw [hnone]
    exact .inl rfl
  · rw [heq]
    exact .inr rfl

theorem Below.guarded {x y : Work String} (h : Below x y) (path : String) (loc : Loc) :
    Below (guarded path loc x) (guarded path loc y) := by
  intro session
  unfold Compile.guarded
  rcases h session with hnone | heq
  · rw [hnone]
    exact .inl rfl
  · rw [heq]
    exact .inr rfl

variable (h : ∀ kind subject position text,
  Below (fold kind subject position text) (other kind subject position text))

include h

theorem below_runDeclHooks (kind : HookKind) (decl : Decl) (text : String) :
    Below (runDeclHooks fold kind decl text) (runDeclHooks other kind decl text) := by
  unfold runDeclHooks
  split
  · exact .refl _
  · exact (h _ _ _ _).whileActive

theorem below_compileDecl (decl : Decl) :
    Below (compileDecl fold decl) (compileDecl other decl) := by
  have htext : Below (declText fold decl) (declText other decl) :=
    (Below.refl _).bind fun _ => below_runDeclHooks h _ _ _
  exact (Below.refl _).bind fun _ => (htext.guarded _ _).bind fun _ => .refl _

theorem below_compileEach : ∀ decls : List (Option Decl),
    Below (compileEach fold decls) (compileEach other decls)
  | [] => .refl _
  | none :: rest => below_compileEach rest
  | some decl :: rest => (below_compileDecl h decl).bind fun _ =>
      (below_compileEach rest).bind fun _ => .refl _

theorem below_compileWith (decls : List (Option Decl)) :
    Below (compileWith fold decls) (compileWith other decls) :=
  ((below_compileEach h decls).bind fun _ => .refl _).whileActive

theorem below_compileExprWith (e : Expr) :
    Below (compileExprWith fold e) (compileExprWith other e) := by
  have htext : Below (exprText fold e) (exprText other e) :=
    (Below.refl _).bind fun _ => (h _ _ _ _).whileActive
  exact Below.whileActive ((Below.refl _).bind fun _ => (htext.guarded _ _).bind fun _ => .refl _)

theorem below_work (op : Operation Hook) : Below (op.work fold) (op.work other) := by
  cases op with
  | register | registerExpr | setNullability | note => exact .refl _
  | run => exact (below_runDeclHooks h _ _ _).bind fun _ => .refl _
  | runExpression => exact (h _ _ _ _).whileActive.bind fun _ => .refl _
  | compile decls => exact (below_compileWith h decls).bind fun _ => .refl _
  | compileExpr e => exact (below_compileExprWith h e).bind fun _ => .refl _

theorem below_perform : ∀ script : Script, Below (perform fold script) (perform other script)
  | .done _ => .refl _
  | .fail _ => .refl _
  | .look next => (Below.refl _).bind fun session => below_perform (next session.view)
  | .ask op next => (below_work h op).attempt.bind fun r => below_perform (next r)

theorem below_foldStep (kind : HookKind) (subject : Subject) (position : Nat) (text : String) :
    Below (foldStep fold kind subject position text) (foldStep other kind subject position text) := by
  refine (Below.refl _).bind fun session => ?_
  split
  · exact .refl _
  · exact (Below.refl _).bind fun _ => (below_perform h _).bind fun _ => (Below.refl _).bind
      fun _ => h _ _ _ _

end Below

/-- Runs the hooks of a kind over a text, from a position on, as they are
registered when their turn comes. -/
def foldFrom (kind : HookKind) (subject : Subject) (position : Nat) (text : String)
    (session : Session) : Option (Except Failure String × Session) :=
  foldStep (by apply foldFrom) kind subject position text session
partial_fixpoint monotonicity by
  intro fold other h kind subject position text session
  have hbelow (kind subject position text) : Below (fold kind subject position text)
      (other kind subject position text) := by
    intro session
    have hfold := h kind subject position text session
    generalize fold kind subject position text session = x,
      other kind subject position text session = y at hfold ⊢
    cases hfold with
    | bot => exact .inl rfl
    | refl => exact .inr rfl
  dsimp only
  rcases below_foldStep hbelow kind subject position text session with hnone | heq
  · rw [hnone]
    exact .bot
  · rw [heq]
    exact .refl

/-- Compiles declarations. -/
def compile (decls : List (Option Decl)) : Work Result := compileWith foldFrom decls

/-- Compiles an expression. -/
def compileExpr (e : Expr) : Work Result := compileExprWith foldFrom e

/-- Runs the hooks of a kind over a text, for a declaration. -/
def runHooks (kind : HookKind) (text : String) (decl : Decl) : Work String :=
  runDeclHooks foldFrom kind decl text

/-- Runs the hooks for expressions over a text. -/
def runExpression (text : String) (e : Expr) : Work String :=
  runExprHooks foldFrom e text

end LuaBackend.Compile
