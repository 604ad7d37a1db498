import LuaBackend.Proofs.Text.Segments
import LuaBackend.Types.Path

/-!
# Reading type paths back

Every text is the dotted form of the path that is read from it. A path is
read back from its dotted form unless one of its parts holds a dot: the
parts that are read never do.
-/

namespace LuaBackend.TypePath

open Text List

def parts (path : TypePath) : List String := path.pack ++ [path.name]

theorem dotted_eq (path : TypePath) : path.dotted = (String.singleton '.').intercalate path.parts := rfl

/-- The parts that are read are the segments of the text. -/
theorem parts_parse (text : String) : (parse text).parts = segments '.' text := by
  have hne := segments_ne_nil '.' text
  have hlast : (segments '.' text).getLastD "" = (segments '.' text).getLast hne := by
    rw [getLastD_eq_getLast?, getLast?_eq_some_getLast hne, Option.getD_some]
  rw [parts, parse, hlast]
  exact dropLast_concat_getLast hne

/-- A path is read from the text that its parts are the segments of. -/
theorem parse_of_segments {path : TypePath} {text : String}
    (h : segments '.' text = path.parts) : parse text = path := by
  rw [parse, h, parts, dropLast_concat, getLastD_concat]

/-- **Type paths are read back.** Every text is the dotted form of its path,
and a path comes back from its dotted form exactly if no part holds a dot. -/
theorem paths_round_trip : (∀ text : String, (parse text).dotted = text) ∧
    ∀ path : TypePath, parse path.dotted = path ↔
      (∀ package ∈ path.pack, '.' ∉ package.toList) ∧ '.' ∉ path.name.toList := by
  refine ⟨fun text => ?_, fun path => ⟨fun h => ?_, fun ⟨hpack, hname⟩ => ?_⟩⟩
  · rw [dotted_eq, parts_parse, intercalate_segments]
  · have hparts : ∀ part ∈ path.parts, '.' ∉ part.toList := fun part hpart => by
      rw [← h, parts_parse] at hpart
      exact notMem_of_mem_segments hpart
    obtain ⟨hpack, hname⟩ := forall_mem_append.1 hparts
    exact ⟨hpack, hname path.name (.head _)⟩
  · refine parse_of_segments (segments_intercalate (append_ne_nil_of_right_ne_nil _ nofun) ?_)
    exact forall_mem_append.2 ⟨hpack, forall_mem_singleton.2 hname⟩

/-- Neither a missing package nor a missing name is lost. -/
example : parse (TypePath.dotted ⟨["", "a"], ""⟩) = ⟨["", "a"], ""⟩ := by decide

end LuaBackend.TypePath
