import LuaBackend.Text.Segments

/-!
# Type paths

A type is named by the packages it lies in and its own name. Source text
writes the path with dots; the Lua global that holds the type is written
with underscores.
-/

namespace LuaBackend

open Text

/-- The packages of a type, outermost first, and its name. -/
structure TypePath where
  pack : List String := []
  name : String := ""
deriving DecidableEq, Inhabited

namespace TypePath

/-- The path as source text writes it. -/
def dotted (path : TypePath) : String := ".".intercalate (path.pack ++ [path.name])

/-- The name of the Lua global that holds the type. -/
def global (path : TypePath) : String := "_".intercalate (path.pack ++ [path.name])

/-- Reads a dotted path: the last segment is the name, the ones before it
are packages. -/
def parse (text : String) : TypePath :=
  let segs := segments '.' text
  ⟨segs.dropLast, segs.getLastD ""⟩

/-- A path without a name stands for no type at all. -/
def isEmpty (path : TypePath) : Bool := path.name.isEmpty

end TypePath

end LuaBackend
