import LuaBackend.Source.FileTable
import LuaBackend.Source.Loc

/-!
# Diagnostics

A diagnostic is a message with a severity, a position and a code. A
report collects diagnostics in the order in which they were made and
counts them by severity.
-/

namespace LuaBackend

/-- How serious a diagnostic is. -/
inductive Severity where
  | warning
  | error
deriving DecidableEq, Inhabited

/-- The word for a severity. -/
def Severity.text : Severity → String
  | .warning => "warning"
  | .error => "error"

/-- One message about the input. -/
structure Diagnostic where
  severity : Severity
  message : String
  loc : Loc
  /-- Short code of the rule that was broken; empty when there is none. -/
  code : String
deriving DecidableEq, Inhabited

namespace Diagnostic

/-- An error with the given code. -/
def error (loc : Loc) (message code : String) : Diagnostic :=
  ⟨.error, message, loc, code⟩

/-- The position as written in front of a message: the path, then the
line, then the column, as far as they are known. Nothing is written when
the file is not in the table. -/
def place (files : Source.FileTable) (loc : Loc) : String :=
  let path := files.path loc.file
  if path.isEmpty then ""
  else
    let column := if loc.hasColumn then ":" ++ toString loc.column else ""
    let line := if loc.hasLine then ":" ++ toString loc.line ++ column else ""
    path ++ line ++ ": "

/-- The line of text for a diagnostic. Without a file table no position is
written. -/
def text (files : Option Source.FileTable) (d : Diagnostic) : String :=
  let place := match files with
    | some table => place table d.loc
    | none => ""
  let code := if d.code.isEmpty then "" else "[" ++ d.code ++ "]"
  place ++ d.severity.text ++ code ++ ": " ++ d.message ++ "\n"

end Diagnostic

/-- The diagnostics of a run, oldest first. -/
structure Report where
  entries : List Diagnostic := []
deriving DecidableEq, Inhabited

namespace Report

/-- Adds a diagnostic at the end. -/
def add (report : Report) (d : Diagnostic) : Report :=
  ⟨report.entries ++ [d]⟩

/-- Number of diagnostics of one severity. -/
def count (report : Report) (severity : Severity) : Nat :=
  report.entries.countP fun d => d.severity = severity

/-- Number of errors. -/
def errors (report : Report) : Nat := report.count .error

/-- Number of warnings. -/
def warnings (report : Report) : Nat := report.count .warning

/-- All diagnostics as text, one line each. -/
def text (files : Option Source.FileTable) (report : Report) : String :=
  String.join (report.entries.map (Diagnostic.text files))

end Report

end LuaBackend
