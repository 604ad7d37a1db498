import LuaBackend.Source.Path

/-!
# The file table

Files are numbered from one in the order in which they are first
registered. A path is stored in its lexical normal form, so two spellings
of one path share a number.
-/

namespace LuaBackend.Source

/-- The registered paths; the file numbered `n + 1` stands at index `n`. -/
structure FileTable where
  paths : List String := []
deriving DecidableEq, Inhabited

namespace FileTable

/-- The path of a file, empty for a number that was never handed out. -/
def path (table : FileTable) (file : UInt32) : String :=
  if file = 0 then "" else table.paths.getD (file.toNat - 1) ""

/-- Registers a path and returns its number. A path already present keeps
the number it has. When the numbers are used up, a new path is not stored
and gets zero, which is the number of no file. -/
def add (table : FileTable) (path : String) : UInt32 × FileTable :=
  let spelling := normal path
  match table.paths.idxOf? spelling with
  | some i => (UInt32.ofNat (i + 1), table)
  | none =>
    if table.paths.length + 1 < UInt32.size then
      (UInt32.ofNat (table.paths.length + 1), ⟨table.paths ++ [spelling]⟩)
    else (0, table)

end FileTable

end LuaBackend.Source
