import LuaBackend.Tree.Basic

/-!
# Machines and computations

A machine fixes what values there are, what reading a member, an element
or an enum value gives in a world, what the operators compute, and what
the events of a program do: a call, the making of an object, a literal and
a checked cast may change the world and may throw. A computation runs in a
state: the value of every local, the world, and the events so far. It ends
with a value or with a jump, or not within the rounds of a loop that it is
granted.
-/

namespace LuaBackend

/-- What is called. -/
inductive Callee (V : Type) where
  | member (ref : MemberRef) (receiver : Option V)
  | named (name : String)
  | value (v : V)

/-- What a program does to the world. -/
inductive Event (V : Type) where
  | call (callee : Callee V) (args : List V)
  | new (cls : TypePath) (args : List V)
  | object (names : List String) (values : List V)
  | array (values : List V)
  | cast (path : TypePath) (value : V)
  /-- Whether an iterator has another element. -/
  | hasNext (iterator : V)
  /-- The next element of an iterator. -/
  | next (iterator : V)

/-- Values, worlds, and what can be done with them. Reading is total and
changes nothing. -/
structure Machine where
  Value : Type
  World : Type
  const : Const → Value
  typeValue : TypePath → Value
  closure : Expr → Value
  /-- A constructor of an enum as a value. -/
  ctor : MemberRef → Value
  ident : String → World → Value
  member : MemberRef → Option Value → World → Value
  element : Value → Value → World → Value
  enumParam : String → UInt32 → Value → World → Value
  enumIndex : Value → World → Value
  unary : UnaryOp → Value → Value
  binary : BinaryOp → Value → Value → Value
  truth : Value → Bool
  isNull : Value → Bool
  /-- A handler for the type takes the thrown value. -/
  catches : Ty → Value → Bool
  /-- What an event yields or throws, and the world after it. -/
  perform : Event Value → World → Except Value Value × World
  setMember : MemberRef → Option Value → Value → World → World
  setElement : Value → Value → Value → World → World
  truth_bool : ∀ b, truth (const (.bool b)) = b
  truth_not : ∀ v, truth (unary .not v) = !truth v
  isNull_iff : ∀ v, isNull v = true ↔ v = const .null
  truth_eq_null : ∀ v, truth (binary .eq v (const .null)) = isNull v

def Machine.null (M : Machine) : M.Value := M.const .null

/-- Where control goes when a computation does not end with a value. -/
inductive Jump (V : Type) where
  | brk
  | cont
  | ret (v : V)
  | throw (v : V)

/-- The state of a program. -/
structure State (M : Machine) where
  locals : UInt32 → M.Value
  world : M.World
  trace : List (Event M.Value)

def State.set {M : Machine} (σ : State M) (y : UInt32) (v : M.Value) : State M :=
  { σ with locals := fun z => if z = y then v else σ.locals z }

def Exec (M : Machine) (α : Type) : Type :=
  State M → Option (Except (Jump M.Value) α × State M)

namespace Exec

variable {M : Machine} {α β : Type}
variable {x : Exec M α} {f : α → Exec M β} {σ σ' : State M}

instance : Monad (Exec M) where
  pure a := fun σ => some (.ok a, σ)
  bind x f := fun σ =>
    match x σ with
    | none => none
    | some (.ok a, σ') => f a σ'
    | some (.error j, σ') => some (.error j, σ')

theorem pure_apply (a : α) (σ : State M) : (pure a : Exec M α) σ = some (.ok a, σ) := rfl

theorem bind_of_ok {a : α} (h : x σ = some (.ok a, σ')) : (x >>= f) σ = f a σ' := by
  change (match x σ with | none => _ | some (.ok a, σ') => _ | some (.error j, σ') => _) = _
  rw [h]

theorem bind_of_error {j : Jump M.Value} (h : x σ = some (.error j, σ')) :
    (x >>= f) σ = some (.error j, σ') := by
  change (match x σ with | none => _ | some (.ok a, σ') => _ | some (.error j, σ') => _) = _
  rw [h]

theorem bind_of_none (h : x σ = none) : (x >>= f) σ = none := by
  change (match x σ with | none => _ | some (.ok a, σ') => _ | some (.error j, σ') => _) = _
  rw [h]

/-- It has no result, a value or a jump. -/
theorem cases (x : Exec M α) (σ : State M) :
    x σ = none ∨ (∃ a σ', x σ = some (.ok a, σ')) ∨ ∃ j σ', x σ = some (.error j, σ') := by
  rcases h : x σ with _ | ⟨a | a, σ'⟩
  · exact .inl rfl
  · exact .inr (.inr ⟨a, σ', rfl⟩)
  · exact .inr (.inl ⟨a, σ', rfl⟩)

theorem bind_pure_self (x : Exec M α) : x >>= pure = x := by
  funext σ
  rcases cases x σ with h | ⟨a, σ', h⟩ | ⟨j, σ', h⟩
  · rw [bind_of_none h, h]
  · rw [bind_of_ok h, h, pure_apply]
  · rw [bind_of_error h, h]

theorem bind_bind {γ : Type} (x : Exec M α) (f : α → Exec M β) (g : β → Exec M γ) :
    x >>= f >>= g = x >>= fun a => f a >>= g := by
  funext σ
  rcases cases x σ with h | ⟨a, σ', h⟩ | ⟨j, σ', h⟩
  · rw [bind_of_none (bind_of_none h), bind_of_none h]
  · rw [bind_of_ok h]
    rcases cases (f a) σ' with hf | ⟨b, σ'', hf⟩ | ⟨j, σ'', hf⟩
    · rw [bind_of_none hf, bind_of_none ((bind_of_ok h).trans hf)]
    · rw [bind_of_ok hf, bind_of_ok ((bind_of_ok h).trans hf)]
    · rw [bind_of_error hf, bind_of_error ((bind_of_ok h).trans hf)]
  · rw [bind_of_error (bind_of_error h), bind_of_error h]

instance : LawfulMonad (Exec M) :=
  LawfulMonad.mk' (Exec M) bind_pure_self (fun _ _ => rfl) bind_bind

def get (y : UInt32) : Exec M M.Value := fun σ => some (.ok (σ.locals y), σ)

def set (y : UInt32) (v : M.Value) : Exec M Unit := fun σ => some (.ok (), σ.set y v)

def read (f : M.World → M.Value) : Exec M M.Value := fun σ => some (.ok (f σ.world), σ)

def modify (f : M.World → M.World) : Exec M Unit :=
  fun σ => some (.ok (), { σ with world := f σ.world })

def jump (j : Jump M.Value) : Exec M α := fun σ => some (.error j, σ)

def perform (event : Event M.Value) : Exec M M.Value := fun σ =>
  let (result, world) := M.perform event σ.world
  some (result.mapError .throw, { σ with world, trace := σ.trace ++ [event] })

def collect : List (Exec M α) → Exec M (List α)
  | [] => pure []
  | x :: rest => do
    let a ← x
    let as ← collect rest
    return a :: as

def handle (x : Exec M α) (handler : M.Value → Exec M α) : Exec M α := fun σ =>
  match x σ with
  | some (.error (.throw v), σ') => handler v σ'
  | r => r

/-- One round of a loop, which says whether there is another. A break ends
the loop and a continue the round. -/
def round (x : Exec M Bool) : Exec M Bool := fun σ =>
  match x σ with
  | some (.error .brk, σ') => some (.ok false, σ')
  | some (.error .cont, σ') => some (.ok true, σ')
  | r => r

def loop (x : Exec M Bool) : Nat → Exec M M.Value
  | 0 => fun _ => none
  | rounds + 1 => do
    if ← round x then loop x rounds else return M.null

def testThen (cond body : Exec M M.Value) : Exec M Bool := do
  if M.truth (← cond) then
    let _ ← body
    return true
  else return false

def loopAfter (cond body : Exec M M.Value) : Nat → Exec M M.Value
  | 0 => fun _ => none
  | rounds + 1 => do
    if ← round (do let _ ← body; return true) then loop (testThen cond body) rounds
    else return M.null

def advance (y : UInt32) (iterator : M.Value) (body : Exec M M.Value) : Exec M Bool := do
  if M.truth (← perform (.hasNext iterator)) then
    set y (← perform (.next iterator))
    let _ ← body
    return true
  else return false

def matchAny (subject : M.Value) : List (Exec M M.Value) → Exec M Bool
  | [] => pure false
  | x :: rest => do
    if M.truth (M.binary .eq subject (← x)) then return true else matchAny subject rest

def select (subject : M.Value) (default : Exec M M.Value) :
    List (List (Exec M M.Value) × Exec M M.Value) → Exec M M.Value
  | [] => default
  | (values, body) :: rest => do
    if ← matchAny subject values then body else select subject default rest

def rescue (thrown : M.Value) : List (Var × Exec M M.Value) → Exec M M.Value
  | [] => jump (.throw thrown)
  | (var, body) :: rest =>
    if M.catches var.type thrown then do
      set var.id thrown
      body
    else rescue thrown rest

end Exec

end LuaBackend
