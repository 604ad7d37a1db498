import LuaBackend.Number.Decimal
import LuaBackend.Temporary

/-!
# Words of Lua

How names, strings and numbers are spelled in Lua. Names of the program
that Lua reserves, or that generated code uses, get a trailing
underscore; no generated name ends in one.
-/

namespace LuaBackend.Lua

open Number

/-- The reserved words, and the name of the receiver. -/
def keywords : List String :=
  ["and", "break", "do", "else", "elseif", "end", "false", "for", "function", "goto", "if", "in",
    "local", "nil", "not", "or", "repeat", "return", "then", "true", "until", "while", "self"]

/-- The globals that generated code calls by their bare names. -/
def runtimeGlobals : List String := ["pcall", "error", "setmetatable", "math"]

/-- How every generated name begins. -/
def reservedStart : String := "_hx_"

/-- The local that takes values nobody wants. -/
def discard : String := "_"

/-- The name is a reserved word. -/
def isKeyword (name : String) : Bool := keywords.contains name

/-- A name that is not a local: a reserved word gets an underscore. -/
def identifier (name : String) : String := if isKeyword name then name ++ "_" else name

/-- A local of this name would meet a reserved word or a generated
name. -/
def isReservedLocal (name : String) : Bool :=
  isKeyword name || name = discard || reservedStart.toList.isPrefixOf name.toList
    || runtimeGlobals.contains name

/-- The name of a local: a reserved one gets an underscore. -/
def localIdentifier (name : String) : String :=
  if isReservedLocal name then name ++ "_" else name

/-- The name of a variable: temporaries by number, all others by name. -/
def localName (v : Var) : String :=
  if v.isTemp then tempName v.id else localIdentifier v.name

/-- A letter or an underscore. -/
def isNameStart (c : Char) : Bool := c.isAlpha || c = '_'

/-- A letter, an underscore or a digit. -/
def isNamePart (c : Char) : Bool := isNameStart c || c.isDigit

/-- The text has the form of a Lua name, reserved or not. -/
def isName (text : String) : Bool :=
  match text.toList with
  | [] => false
  | c :: cs => isNameStart c && cs.all isNamePart

/-- The escape for a character code, if it has one. Codes without a
letter of their own get three digits, so that a digit after them is not
taken in. -/
def escape? (code : Nat) : Option (List Char) :=
  if code = 10 then some ['\\', 'n']
  else if code = 9 then some ['\\', 't']
  else if code = 13 then some ['\\', 'r']
  else if code = 34 then some ['\\', '"']
  else if code = 92 then some ['\\', '\\']
  else if code < 32 || code = 127 then
    some ['\\', Nat.digitChar (code / 100), Nat.digitChar (code / 10 % 10), Nat.digitChar (code % 10)]
  else none

/-- The quoted form of a string of code units, which are characters or
the bytes of their encoding. Only units below 128 are ever escaped. -/
def quoteUnits {α : Type} (code : α → Nat) (ofChar : Char → α) (units : List α) : List α :=
  let body := units.flatMap fun u =>
    match escape? (code u) with
    | some escape => escape.map ofChar
    | none => [u]
  ofChar '"' :: (body ++ [ofChar '"'])

/-- A string as a Lua literal. -/
def quote (text : String) : String := String.ofList (quoteUnits Char.toNat id text.toList)

/-- A double so that Lua reads it back as a float: the fewest digits, with
a point or an exponent. -/
def floatText (x : Binary64) : String :=
  if x.isNaN then "(0/0)"
  else if x.isInfinite then x.signText ++ "math.huge"
  else
    let digits := x.shortest
    if digits.toList.any fun c => c = '.' || c = 'e' then digits else digits ++ ".0"

/-- The access to a member after a prefix: by name where the name has the
form of one, by string otherwise. -/
def member (name : String) : String :=
  if isName name then "." ++ identifier name else "[" ++ quote name ++ "]"

/-- The key of a field in a table constructor. -/
def tableKey (name : String) : String :=
  if isName name then identifier name else "[" ++ quote name ++ "]"

end LuaBackend.Lua
