/-!
# Placeholders in given code

Code given as text may hold placeholders: a decimal number in braces
stands for the argument with that number. Braces that enclose anything
else, or a number that no argument has, are text.
-/

namespace LuaBackend.Emit

/-- A piece of given code. -/
inductive CodePiece where
  | char (c : Char)
  /-- The argument at a position, where position zero is the code
  itself. -/
  | arg (position : Nat)
  /-- A placeholder whose number does not fit into 64 bits. -/
  | overflow
deriving DecidableEq, Inhabited

/-- The value of a row of decimal digits. -/
def digitsValue (digits : List Char) : Nat :=
  digits.foldl (fun value c => 10 * value + (c.toNat - '0'.toNat)) 0

/-- The digits between an opening brace and the next closing one, if there
are only digits between them. -/
def bracedDigits? (afterBrace : List Char) : Option (List Char) :=
  let inside := afterBrace.takeWhile (· ≠ '\x7d')
  if inside.length < afterBrace.length && !inside.isEmpty && inside.all Char.isDigit then
    some inside
  else none

/-- Splits code into pieces, for a call with `args` arguments including
the code. The first `skip` characters belong to a placeholder already
seen. Positions count in 64 bits. -/
def codePieces (args : Nat) : (skip : Nat) → List Char → List CodePiece
  | _, [] => []
  | skip + 1, _ :: rest => codePieces args skip rest
  | 0, c :: rest =>
    if c = '\x7b' then
      match bracedDigits? rest with
      | none => .char c :: codePieces args 0 rest
      | some digits =>
        let value := digitsValue digits
        if UInt64.size ≤ value then .overflow :: codePieces args 0 rest
        else
          let position := (value + 1) % UInt64.size
          if position < args then .arg position :: codePieces args (digits.length + 1) rest
          else .char c :: codePieces args 0 rest
    else .char c :: codePieces args 0 rest

end LuaBackend.Emit
