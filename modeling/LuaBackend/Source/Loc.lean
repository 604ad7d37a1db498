/-!
# Source positions

A position names a file by its number in the file table, a line and a
column. All three count from one, and zero says that the part is not
known.
-/

namespace LuaBackend

/-- A position in a source file. -/
structure Loc where
  /-- Number of the file in the file table. -/
  file : UInt32 := 0
  /-- Line, counted from one. -/
  line : UInt32 := 0
  /-- Column, counted from one. -/
  column : UInt32 := 0
deriving DecidableEq, Inhabited

namespace Loc

/-- The position names a file. -/
def isValid (loc : Loc) : Bool := loc.file != 0

/-- The position names a line. -/
def hasLine (loc : Loc) : Bool := loc.line != 0

/-- The position names a column. -/
def hasColumn (loc : Loc) : Bool := loc.column != 0

/-- Line and column as `(line:column)`. -/
def text (loc : Loc) : String :=
  "(" ++ toString loc.line ++ ":" ++ toString loc.column ++ ")"

end Loc

end LuaBackend
