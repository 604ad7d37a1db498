import LuaBackend.Text.Segments

/-!
# Cutting and joining

Cutting a text at a character and joining segments with that character
undo each other: a text is joined from its segments, and segments are cut
apart again where none of them holds the character. A segment of a text
never holds it.
-/

namespace LuaBackend.Text

open List String

variable {sep : Char} {text : String} {segs : List String}

/-- A run ends where the separator stands. -/
theorem notMem_of_mem_splitOn {cs run : List Char} (h : run ∈ cs.splitOn sep) : sep ∉ run := by
  induction cs generalizing run with
  | nil =>
    rw [splitOn_nil] at h
    rw [mem_singleton.1 h]
    exact not_mem_nil
  | cons c cs ih =>
    rw [splitOn_cons_eq_if_modifyHead] at h
    split at h
    · obtain rfl | h := mem_cons.1 h
      · exact not_mem_nil
      · exact ih h
    · rename_i hc
      cases hruns : cs.splitOn sep with
      | nil => exact absurd hruns (splitOn_ne_nil sep cs)
      | cons first runs =>
        rw [hruns] at h ih
        obtain rfl | h := mem_cons.1 h
        · exact mt mem_cons.1 (not_or.2 ⟨fun heq => hc (beq_iff_eq.2 heq.symm), ih (.head _)⟩)
        · exact ih (.tail _ h)

/-- No segment of a text holds the separator. -/
theorem notMem_of_mem_segments {s : String} (h : s ∈ segments sep text) : sep ∉ s.toList := by
  obtain ⟨run, hrun, rfl⟩ := mem_map.1 h
  rw [toList_ofList]
  exact notMem_of_mem_splitOn hrun

/-- Segments that do not hold the separator are cut apart where they were
joined. -/
theorem segments_intercalate (hne : segs ≠ []) (h : ∀ s ∈ segs, sep ∉ s.toList) :
    segments sep ((singleton sep).intercalate segs) = segs := by
  have hlist : (segs.map toList).map ofList = segs := by
    simp
  rw [segments, toList_intercalate, toList_singleton, splitOn_intercalate, hlist]
  · exact forall_mem_map.2 h
  · simpa using hne

/-- A text is joined from its segments. -/
theorem intercalate_segments (sep : Char) (text : String) :
    (singleton sep).intercalate (segments sep text) = text := by
  have hlist : ((text.toList.splitOn sep).map ofList).map toList = text.toList.splitOn sep := by
    simp
  rw [← toList_inj, segments, toList_intercalate, hlist, toList_singleton, intercalate_splitOn]

end LuaBackend.Text
