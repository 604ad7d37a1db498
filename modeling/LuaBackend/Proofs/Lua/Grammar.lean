import LuaBackend.Lua.Lexical
import LuaBackend.Lua.Operator

/-!
# How Lua reads expressions

The part of Lua's grammar that expressions without strings, floats,
functions and tables need. `scan` splits a text into tokens, the longest
first: two minus signs begin a comment, and a digit goes on with a
numeral. `subexpr` reads tokens with Lua's table of priorities: an
operator takes what stands to its left if its left priority exceeds a
limit, and its right priority is the limit for what stands to its right.
Reading is granted a depth; `Reads` says what comes out if the depth
suffices.
-/

namespace LuaBackend.Lua

/-- The minus sign is an operator in either of its uses. -/
inductive Token where
  | op (op : Operator)
  | not
  | nil
  | bool (value : Bool)
  | name (text : String)
  | number (value : Nat)
  | dot
  | comma
  | opening
  | closing
  | assign
deriving DecidableEq

def reserved : List String :=
  ["and", "break", "do", "else", "elseif", "end", "false", "for", "function", "goto", "if", "in",
    "local", "nil", "not", "or", "repeat", "return", "then", "true", "until", "while"]

def wordTokens : List (String × Token) :=
  [("and", .op .and), ("or", .op .or), ("not", .not), ("nil", .nil), ("true", .bool true),
    ("false", .bool false)]

def wordToken? (word : List Char) : Option Token :=
  let text := String.ofList word
  if reserved.contains text then wordTokens.lookup text else some (.name text)

def isBlank (c : Char) : Bool := c ∈ [' ', '\t', '\n', '\r']

def single? : Char → Option Token
  | '(' => some .opening
  | ')' => some .closing
  | ',' => some .comma
  | '+' => some (.op .add)
  | '*' => some (.op .mul)
  | '/' => some (.op .div)
  | '%' => some (.op .mod)
  | _ => none

def isSign (c : Char) : Bool := c ∈ ['=', '~', '<', '>', '.', '-']

def sign? : Char → Option Token
  | '=' => some .assign
  | '<' => some (.op .lt)
  | '>' => some (.op .gt)
  | '.' => some .dot
  | '-' => some (.op .sub)
  | _ => none

def signs? : Char → Char → Option Token
  | '=', '=' => some (.op .eq)
  | '~', '=' => some (.op .ne)
  | '<', '=' => some (.op .le)
  | '>', '=' => some (.op .ge)
  | _, _ => none

/-- What has been read of a token that may go on. -/
inductive Scan where
  | start
  | word (chars : List Char)
  | digits (chars : List Char)
  | sign (c : Char)
  | dots
  | comment

namespace Scan

def begin? (c : Char) : Option (List Token × Scan) :=
  if isNameStart c then some ([], word [c])
  else if c.isDigit then some ([], digits [c])
  else if isBlank c then some ([], start)
  else if isSign c then some ([], sign c)
  else (single? c).map fun token => ([token], start)

def finish : Scan → Option (List Token)
  | start | comment => some []
  | word chars => (wordToken? chars).map ([·])
  | digits chars => some [.number (Nat.ofDigitChars 10 chars 0)]
  | sign c => (sign? c).map ([·])
  | dots => some [.op .concat]

def next (s : Scan) (c : Char) : Option (List Token × Scan) := do
  let ended ← s.finish
  let (begun, s') ← begin? c
  return (ended ++ begun, s')

/-- Reads a character. Numerals that go on with a letter or a point, and
points with a digit, are left out. -/
def step (s : Scan) (c : Char) : Option (List Token × Scan) :=
  match s with
  | start => begin? c
  | word chars => if isNamePart c then some ([], word (chars ++ [c])) else s.next c
  | digits chars =>
    if c.isDigit then some ([], digits (chars ++ [c]))
    else if isNameStart c || c = '.' then none
    else s.next c
  | sign a =>
    if a = '-' && c = '-' then some ([], comment)
    else if a = '.' && c = '.' then some ([], dots)
    else if a = '.' && c.isDigit then none
    else
      match signs? a c with
      | some token => some ([token], start)
      | none => s.next c
  | dots => if c = '.' then none else s.next c
  | comment => if c = '\n' then some ([], start) else some ([], comment)

end Scan

def scan (s : Scan) : List Char → Option (List Token)
  | [] => s.finish
  | c :: rest => do
    let (tokens, s') ← s.step c
    return tokens ++ (← scan s' rest)

/-! ## Terms -/

/-- What an expression is read as. Parentheses only group. -/
inductive Term where
  | nil
  | bool (value : Bool)
  | number (value : Nat)
  | name (text : String)
  | member (object : Term) (name : String)
  | call (callee : Term) (args : List Term)
  | binary (op : Operator) (lhs rhs : Term)
  | not (operand : Term)
  | neg (operand : Term)

def Term.isVariable : Term → Bool
  | name _ | member _ _ => true
  | _ => false

def leftPriority : Operator → Nat
  | .or => 1
  | .and => 2
  | .eq | .ne | .lt | .le | .gt | .ge => 3
  | .concat => 5
  | .add | .sub => 6
  | .mul | .div | .mod => 7

def rightPriority : Operator → Nat
  | .or => 1
  | .and => 2
  | .eq | .ne | .lt | .le | .gt | .ge => 3
  | .concat => 4
  | .add | .sub => 6
  | .mul | .div | .mod => 7

def unaryPriority : Nat := 8

mutual

def subexpr : (depth limit : Nat) → List Token → Option (Term × List Token)
  | 0, _, _ => none
  | n + 1, limit, .not :: tokens => do
    let (operand, rest) ← subexpr n unaryPriority tokens
    binops n limit (.not operand) rest
  | n + 1, limit, .op .sub :: tokens => do
    let (operand, rest) ← subexpr n unaryPriority tokens
    binops n limit (.neg operand) rest
  | n + 1, limit, tokens => do
    let (lhs, rest) ← simple n tokens
    binops n limit lhs rest

def binops : (depth limit : Nat) → Term → List Token → Option (Term × List Token)
  | 0, _, _, _ => none
  | n + 1, limit, lhs, .op op :: tokens =>
    if limit < leftPriority op then do
      let (rhs, rest) ← subexpr n (rightPriority op) tokens
      binops n limit (.binary op lhs rhs) rest
    else some (lhs, .op op :: tokens)
  | _ + 1, _, lhs, tokens => some (lhs, tokens)

def simple : (depth : Nat) → List Token → Option (Term × List Token)
  | _ + 1, .nil :: tokens => some (.nil, tokens)
  | _ + 1, .bool value :: tokens => some (.bool value, tokens)
  | _ + 1, .number value :: tokens => some (.number value, tokens)
  | n + 1, .name text :: tokens => suffixes n (.name text) tokens
  | n + 1, .opening :: tokens => do
    let (inner, rest) ← subexpr n 0 tokens
    match rest with
    | .closing :: rest => suffixes n inner rest
    | _ => none
  | _, _ => none

def suffixes : (depth : Nat) → Term → List Token → Option (Term × List Token)
  | 0, _, _ => none
  | n + 1, t, .dot :: .name text :: tokens => suffixes n (.member t text) tokens
  | n + 1, t, .opening :: .closing :: tokens => suffixes n (.call t []) tokens
  | n + 1, t, .opening :: tokens => do
    let (args, rest) ← arguments n tokens
    suffixes n (.call t args) rest
  | _ + 1, t, tokens => some (t, tokens)

def arguments : (depth : Nat) → List Token → Option (List Term × List Token)
  | 0, _ => none
  | n + 1, tokens => do
    let (arg, rest) ← subexpr n 0 tokens
    match rest with
    | .closing :: rest => return ([arg], rest)
    | .comma :: rest =>
      let (args, rest) ← arguments n rest
      return (arg :: args, rest)
    | _ => none

end

/-- Reads what can be assigned to: no variable in parentheses, unless a
member of it follows. -/
def target? (depth : Nat) : List Token → Option (Term × List Token)
  | .name text :: tokens => do
    let (t, rest) ← suffixes depth (.name text) tokens
    if t.isVariable then return (t, rest) else none
  | .opening :: tokens => do
    let (inner, rest) ← subexpr depth 0 tokens
    match rest with
    | .closing :: tokens =>
      let (t, rest) ← suffixes depth inner tokens
      if rest.length < tokens.length && t.isVariable then return (t, rest) else none
    | _ => none
  | _ => none

def expression? (depth : Nat) (text : String) : Option Term := do
  let tokens ← scan .start text.toList
  match ← subexpr depth 0 tokens with
  | (t, []) => return t
  | _ => none

def assignment? (depth : Nat) (text : String) : Option (Term × Term) := do
  let tokens ← scan .start text.toList
  let (target, rest) ← target? depth tokens
  match rest with
  | .assign :: tokens =>
    match ← subexpr depth 0 tokens with
    | (value, []) => return (target, value)
    | _ => none
  | _ => none

def Converges {α : Type} (f : Nat → Option α) (a : α) : Prop := ∃ k, ∀ n, k ≤ n → f n = some a

def Reads (text : String) (t : Term) : Prop := Converges (expression? · text) t

def ReadsAssignment (text : String) (target value : Term) : Prop :=
  Converges (assignment? · text) (target, value)

section Converges

variable {α β : Type} {f : Nat → Option α} {a : α}

theorem converges_of_succ (h : ∀ n, f (n + 1) = some a) : Converges f a := by
  refine ⟨1, fun n hn => ?_⟩
  obtain ⟨m, rfl⟩ : ∃ m, n = m + 1 := ⟨n - 1, by omega⟩
  exact h m

/-- One reader after another, each with enough depth. -/
theorem Converges.bind_succ {g : Nat → α → Option β} {h : Nat → Option β} {b : β}
    (hf : Converges f a) (hg : Converges (g · a) b) (hstep : ∀ n, h (n + 1) = f n >>= g n) :
    Converges h b := by
  obtain ⟨k, hk⟩ := hf
  obtain ⟨m, hm⟩ := hg
  refine ⟨k + m + 1, fun n hn => ?_⟩
  obtain ⟨n, rfl⟩ : ∃ m, n = m + 1 := ⟨n - 1, by omega⟩
  rw [hstep, hk n (by omega)]
  exact hm n (by omega)

theorem Converges.succ {h : Nat → Option α} (hf : Converges f a) (hstep : ∀ n, h (n + 1) = f n) :
    Converges h a := by
  obtain ⟨k, hk⟩ := hf
  refine ⟨k + 1, fun n hn => ?_⟩
  obtain ⟨n, rfl⟩ : ∃ m, n = m + 1 := ⟨n - 1, by omega⟩
  rw [hstep, hk n (by omega)]

end Converges

end LuaBackend.Lua
