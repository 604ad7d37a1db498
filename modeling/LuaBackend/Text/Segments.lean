/-!
# Segments of a text

A text is cut at every occurrence of a separating character. Cutting never
drops a segment: the empty text has one segment, and two separators in a
row enclose an empty one.
-/

namespace LuaBackend.Text

/-- The segments of a text between occurrences of `sep`. -/
def segments (sep : Char) (text : String) : List String :=
  (text.toList.splitOn sep).map String.ofList

/-- The list of segments of a text is never empty. -/
theorem segments_ne_nil (sep : Char) (text : String) : segments sep text ≠ [] := by
  simp [segments]

end LuaBackend.Text
