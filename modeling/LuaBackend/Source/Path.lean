import LuaBackend.Text.Segments

/-!
# Lexical form of file paths

Two spellings of a path that differ only in repeated separators, `.`
segments or a segment cancelled by `..` name the same file whatever the
disk holds. `normal` picks one spelling for all of them. It never looks
at the disk, so a `..` cancels the name before it even if that name were
a link.
-/

namespace LuaBackend.Source

open Text

/-- Drops `.`, and lets `..` cancel the name before it. The names kept so
far come innermost first. Above the root `..` stays at the root; above
the start of a relative path it is kept. -/
def cancel (rooted : Bool) : List String → List String → List String
  | kept, [] => kept
  | kept, seg :: rest =>
    if seg = "." then cancel rooted kept rest
    else if seg = ".." then
      match kept with
      | [] => cancel rooted (if rooted then [] else [".."]) rest
      | top :: below =>
        if top = ".." then cancel rooted (".." :: kept) rest
        else cancel rooted below rest
    else cancel rooted (seg :: kept) rest

/-- A path spelled like a directory: it ends in a separator or in a
segment that only a directory answers to. -/
def endsInDirectory (segs : List String) : Bool :=
  match segs.getLast? with
  | some last => last = "" || last = "." || last = ".."
  | none => false

/-- The one spelling of a path. A name that was spelled as a directory
keeps one trailing separator, a final `..` has none, and a relative path
of which nothing is left is `.`. The empty path stays empty. -/
def normal (path : String) : String :=
  if path.isEmpty then ""
  else
    let segs := segments '/' path
    let rooted := segs.head? == some ""
    let kept := cancel rooted [] (segs.filter fun seg => seg ≠ "")
    let root := if rooted then "/" else ""
    match kept with
    | [] => if rooted then "/" else "."
    | last :: _ =>
      let slash := if endsInDirectory segs && last ≠ ".." then "/" else ""
      root ++ "/".intercalate kept.reverse ++ slash

end LuaBackend.Source
