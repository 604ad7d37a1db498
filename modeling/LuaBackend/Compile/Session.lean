import LuaBackend.Compile.Failure
import LuaBackend.Tree.Decl
import LuaBackend.Types.Nullability

/-!
# Sessions

A session holds the options of a compilation, the policy on null, and the
hooks that edit emitted text. Hooks are kept in the order in which
they were registered, and none can be registered while a run is going on.

A hook is given the text of a unit and makes new text of it, or fails. On
the way it may turn to the session that runs it, as often as it likes: to
compile something else, to run hooks, or to try to register one. It gets
to know how each of these has ended, be it with a failure, and goes on from
there.
-/

namespace LuaBackend.Compile

/-- Options of a compilation. -/
structure Options where
  /-- Reference types do not admit null. -/
  strict : Bool := false
  /-- How serious null in the wrong place is. -/
  nullSeverity : Severity := .error
  /-- Decide comparisons with null where types do. -/
  foldNulls : Bool := true
  /-- Look for null in the wrong place. -/
  checkNulls : Bool := true
  /-- Check trees for normal form before they are written. -/
  checkNormalForm : Bool := true
  /-- Log the outline of each declaration. -/
  logTrees : Bool := false
  /-- Log the outline of each tree in normal form. -/
  logNormalized : Bool := false
  /-- Log each phase. -/
  logPhases : Bool := false
  /-- The text of one level of indentation. -/
  indent : String := "\t"
deriving DecidableEq, Inhabited

/-- What hooks are registered for. -/
inductive HookKind where
  | cls
  | enum
  | typedef
  | abstract
  | expression
deriving DecidableEq, Inhabited

/-- The word for a kind of hook. -/
def HookKind.text : HookKind → String
  | cls => "class"
  | enum => "enum"
  | typedef => "typedef"
  | abstract => "abstract"
  | expression => "expression"

/-- The hooks for a declaration. -/
def HookKind.ofDecl : Decl → HookKind
  | .cls _ => .cls
  | .enum .. => .enum
  | .typedef .. => .typedef
  | .abstract .. => .abstract

/-- What a hook is run for. -/
inductive Subject where
  | decl (decl : Decl)
  | expr (expr : Expr)

/-- The text of a compiled unit. -/
structure Output where
  /-- The dotted path of a declaration; empty for an expression. -/
  path : String := ""
  /-- The text after all hooks; empty on failure. -/
  text : String := ""
  /-- The unit was compiled. -/
  ok : Bool := false
deriving DecidableEq, Inhabited

/-- The outcome of a run. -/
structure Result where
  outputs : List Output := []
  report : Report := {}
deriving Inhabited

namespace Result

/-- No error was reported. -/
def succeeded (result : Result) : Bool := result.report.errors = 0

/-- The text of all compiled units. -/
def text (result : Result) : String :=
  String.join (result.outputs.map fun o => if o.ok then o.text else "")

end Result

/-! ## Hooks -/

/-- Something that happened while hooks ran. -/
inductive Event where
  | before (kind : HookKind) (position : Nat)
  | after (kind : HookKind) (position : Nat)
  | note (text : String)
deriving DecidableEq, Inhabited

/-- The line for an event. -/
def Event.text : Event → String
  | before kind position => "before " ++ kind.text ++ " " ++ toString position
  | after kind position => "after " ++ kind.text ++ " " ++ toString position
  | note text => "note " ++ text

/-- What a hook sees of the session that runs it. -/
structure View where
  options : Options
  admits : Nullability
  /-- A run is going on. -/
  active : Bool
  /-- How many hooks of a kind there are. -/
  size : HookKind → Nat
  /-- What has happened so far. Here hooks find what they have noted. -/
  trace : List Event

/-- What a session can be asked to do. -/
inductive Operation (Hook : Type) where
  /-- Registers a hook for declarations. -/
  | register (kind : HookKind) (hook : Option Hook)
  /-- Registers a hook for expressions. -/
  | registerExpr (hook : Option Hook)
  /-- Sets the policy on null, or goes back to the built-in one. -/
  | setNullability (admits : Option Nullability)
  /-- Records a text in the trace. -/
  | note (text : String)
  /-- Runs hooks for declarations over a text. -/
  | run (kind : HookKind) (text : String) (decl : Decl)
  /-- Runs the hooks for expressions over a text. -/
  | runExpression (text : String) (e : Expr)
  /-- Compiles declarations. -/
  | compile (decls : List (Option Decl))
  /-- Compiles an expression. -/
  | compileExpr (e : Expr)

/-- What an operation gives if it succeeds. -/
inductive Answer where
  | done
  | text (text : String)
  | result (result : Result)

/-- What a hook does: a tree of operations. -/
inductive Script where
  /-- Returns a text. -/
  | done (text : String)
  /-- Fails. -/
  | fail (failure : Failure)
  /-- Looks at the session, and goes on with what it sees. -/
  | look (next : View → Script)
  /-- Asks something of the session, and goes on with the answer or with
  the failure. -/
  | ask (op : Operation (Subject → String → Script)) (next : Except Failure Answer → Script)

/-- A hook. -/
abbrev Hook := Subject → String → Script

/-- The hooks of a session. -/
structure Chain where
  /-- All hooks, in the order in which they were registered. -/
  hooks : List (HookKind × Hook) := []
  /-- Record each hook before it is run. -/
  traceBefore : Bool := false
  /-- Record each hook after it has run. -/
  traceAfter : Bool := false
  /-- How many runs are going on. -/
  active : Nat := 0

namespace Chain

/-- The hooks of a kind. -/
def ofKind (chain : Chain) (kind : HookKind) : List Hook :=
  chain.hooks.filterMap fun (k, hook) => if k = kind then some hook else none

/-- A run is going on. -/
def isActive (chain : Chain) : Bool := 0 < chain.active

end Chain

/-- A session. -/
structure Session where
  options : Options := {}
  admits : Nullability := Nullability.builtin false
  chain : Chain := {}
  /-- What happened while hooks ran, oldest first. -/
  trace : List Event := []
  /-- The log. -/
  log : String := ""

/-- Work in a session, which is kept also on failure. It may go on for
ever. -/
abbrev Work := ExceptT Failure (StateT Session Option)

namespace Session

/-- A new session. -/
def new (options : Options) : Session :=
  { options, admits := Nullability.builtin options.strict }

/-- What a hook sees. -/
def view (session : Session) : View where
  options := session.options
  admits := session.admits
  active := session.chain.isActive
  size kind := (session.chain.ofKind kind).length
  trace := session.trace

/-- Marks a run as going on. -/
def enter (session : Session) : Session :=
  { session with chain := { session.chain with active := session.chain.active + 1 } }

/-- Marks a run as over. -/
def leave (session : Session) : Session :=
  { session with chain := { session.chain with active := session.chain.active - 1 } }

end Session

/-- Works with a run marked as going on, until the end or a failure. -/
def whileActive {α : Type} (act : Work α) : Work α := fun session =>
  match act session.enter with
  | some (r, session) => some (r, session.leave)
  | none => none

/-- Works without failing: how the work has ended is the result. -/
def attempt {α : Type} (act : Work α) : Work (Except Failure α) := fun session =>
  match act session with
  | some (r, session) => some (.ok r, session)
  | none => none

/-- Writes to the log. -/
def log (text : String) : Work PUnit := modify fun session => { session with log := session.log ++ text }

/-- Logs a phase, if phases are logged. -/
def logPhase (phase unit : String) : Work PUnit := do
  if (← get).options.logPhases then
    log ("[lumen] " ++ phase ++ (if unit.isEmpty then "" else " " ++ unit) ++ "\n")

/-- Records an event. -/
def record (event : Event) : Work PUnit :=
  modify fun session => { session with trace := session.trace ++ [event] }

/-- Records an event, if the chain says so. -/
def recordIf (records : Chain → Bool) (event : Event) : Work PUnit := do
  if records (← get).chain then record event

/-- Fails unless hooks can be registered. -/
def checkIdle : Work PUnit := do
  if (← get).chain.isActive then
    throw (.internal .state "hooks cannot be registered while a compilation run is active")

/-- Adds a hook at the end of those of its kind. A missing hook is
refused. -/
def appendHook (kind : HookKind) (hook : Option Hook) : Work PUnit := do
  match hook with
  | none => throw (.internal .argument "empty hook")
  | some hook => modify fun session =>
    { session with chain := { session.chain with hooks := session.chain.hooks ++ [(kind, hook)] } }

/-- Registers a hook for declarations. -/
def registerHook (kind : HookKind) (hook : Option Hook) : Work PUnit := do
  checkIdle
  if kind = .expression then
    throw (.internal .argument "expression hooks are registered with registerExprHook")
  appendHook kind hook

/-- Registers a hook for expressions. -/
def registerExprHook (hook : Option Hook) : Work PUnit := do
  checkIdle
  appendHook .expression hook

/-- Says which hooks are recorded. -/
def traceHooks (before after : Bool) : Work PUnit := modify fun session =>
  { session with chain := { session.chain with traceBefore := before, traceAfter := after } }

/-- Sets the policy on null, or goes back to the built-in one. -/
def setNullability (admits : Option Nullability) : Work PUnit := do
  let session ← get
  if session.chain.isActive then
    throw (.internal .state "nullability policy cannot change while a compilation run is active")
  set { session with admits := admits.getD (Nullability.builtin session.options.strict) }

end LuaBackend.Compile
