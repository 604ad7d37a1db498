import LuaBackend.Lua.Lexical
import LuaBackend.Lua.Syntax

/-!
# The text of generated Lua

Statements take a line each, indented by the depth of the block they
stand in. A function literal runs over several lines unless its body is
empty.
-/

namespace LuaBackend.Lua

open Text

/-- How lines are indented. -/
structure Layout where
  /-- The text of one level. -/
  unit : String := "\t"
  /-- The number of levels. -/
  depth : Nat := 0
deriving DecidableEq, Inhabited

namespace Layout

/-- One level further in. -/
def deeper (layout : Layout) : Layout := { layout with depth := layout.depth + 1 }

/-- The indentation. -/
def indent (layout : Layout) : String := String.join (List.replicate layout.depth layout.unit)

/-- A line of text. -/
def line (layout : Layout) (text : String) : String := layout.indent ++ text ++ "\n"

end Layout

/-- Names in a row. A comma stands before a name if any text does. -/
def nameList (names : List String) : String :=
  names.foldl (fun text name => if text.isEmpty then name else text ++ ", " ++ name) ""

/-- The name of the local that tells whether a protected body succeeded. -/
def statusName : String := "_hx_status"

/-- The name of the local that holds what a protected body returned. -/
def resultName : String := "_hx_result"

/-- The name of the label at the end of a loop body. -/
def labelName (label : UInt32) : String := "_hx_continue_" ++ toString label

/-- The text begins with the given character. -/
def startsWith (c : Char) (text : String) : Bool := text.toList.head? == some c

mutual

/-- The text of an expression. -/
def Expr.text (layout : Layout) : Expr → String
  | .nil => "nil"
  | .bool value => if value then "true" else "false"
  | .int value => toString value
  | .float value => floatText value
  | .string value => quote value
  | .name text => text
  | .paren inner => "(" ++ inner.text layout ++ ")"
  | .member object name => object.text layout ++ member name
  | .key object name => object.text layout ++ "[" ++ quote name ++ "]"
  | .index object position => object.text layout ++ "[" ++ position.text layout ++ "]"
  | .call callee args => callee.text layout ++ "(" ++ ", ".intercalate (Expr.texts layout args) ++ ")"
  | .method object name args =>
    object.text layout ++ ":" ++ identifier name ++ "("
      ++ ", ".intercalate (Expr.texts layout args) ++ ")"
  | .callWithSelf callee args =>
    let args := ", ".intercalate (Expr.texts layout args)
    callee.text layout ++ "(self" ++ (if args.isEmpty then "" else ", " ++ args) ++ ")"
  | .binary op lhs rhs => lhs.text layout ++ " " ++ op.spelling ++ " " ++ rhs.text layout
  | .not operand => "not " ++ operand.text layout
  | .neg operand =>
    -- Two minus signs would begin a comment.
    let text := operand.text layout
    if startsWith '-' text then "-(" ++ text ++ ")" else "-" ++ text
  | .function params [] => "function(" ++ nameList params ++ ") end"
  | .function params body =>
    "function(" ++ nameList params ++ ")\n" ++ Stmt.texts layout.deeper body ++ layout.indent ++ "end"
  | .block body => "(function()\n" ++ Stmt.texts layout.deeper body ++ layout.indent ++ "end)()"
  | .object fields =>
    "_hx_o(\x7b__fields__=\x7b"
      ++ ",".intercalate (fields.map fun f => tableKey f.name ++ "=true") ++ "\x7d"
      ++ Expr.fieldsText layout fields ++ "\x7d)"
  | .array elements =>
    "_hx_tab_array(\x7b" ++ (if elements.isEmpty then "" else "[0]=")
      ++ ", ".intercalate (Expr.texts layout elements) ++ "\x7d, " ++ toString elements.length ++ ")"
  | .verbatim pieces => Expr.piecesText layout pieces

def Expr.texts (layout : Layout) : List Expr → List String
  | [] => []
  | e :: rest => e.text layout :: Expr.texts layout rest

/-- The fields of an object literal, each after a comma. -/
def Expr.fieldsText (layout : Layout) : List (FieldInit Expr) → String
  | [] => ""
  | ⟨name, value⟩ :: rest =>
    "," ++ tableKey name ++ "=" ++ value.text layout ++ Expr.fieldsText layout rest

/-- Code given as text. -/
def Expr.piecesText (layout : Layout) : List (Piece Expr) → String
  | [] => ""
  | .text text :: rest => text ++ Expr.piecesText layout rest
  | .code e :: rest => e.text layout ++ Expr.piecesText layout rest

/-- The text after a word, if there is an expression. -/
def Expr.optionText (layout : Layout) (word : String) : Option Expr → String
  | none => ""
  | some e => word ++ e.text layout

def Stmt.text (layout : Layout) : Stmt → String
  | .localVar name init => layout.line ("local " ++ name ++ Expr.optionText layout " = " init)
  | .assign place value => layout.line (place.text layout ++ " = " ++ value.text layout)
  | .call call =>
    let text := call.text layout
    layout.line (if startsWith '(' text then ";" ++ text else text)
  | .run call => layout.line (call.text layout)
  | .ret value => layout.line ("return" ++ Expr.optionText layout " " value)
  | .retInside value => layout.line ("do return" ++ Expr.optionText layout " " value ++ " end")
  | .brk => layout.line "break"
  | .goto label => layout.line ("goto " ++ labelName label)
  | .label label => layout.line ("::" ++ labelName label ++ "::")
  | .scope body => layout.line "do" ++ Stmt.texts layout.deeper body ++ layout.line "end"
  | .loopWhile cond body =>
    layout.line ("while " ++ cond.text layout ++ " do") ++ Stmt.texts layout.deeper body
      ++ layout.line "end"
  | .loopUntilNot body cond =>
    layout.line "repeat" ++ Stmt.texts layout.deeper body
      ++ layout.line ("until not (" ++ cond.text layout ++ ")")
  | .test cond => layout.line ("if " ++ cond.text layout ++ " then end")
  | .branches arms otherwise =>
    Stmt.armsText layout "if " arms ++ Stmt.otherwiseText layout otherwise ++ layout.line "end"
  | .default name value =>
    layout.line ("if " ++ name ++ " == nil then " ++ name ++ " = " ++ value.text layout ++ " end")
  | .protect body =>
    layout.line ("local " ++ statusName ++ ", " ++ resultName ++ " = pcall(function()")
      ++ Stmt.texts layout.deeper body ++ layout.line "end)"
  | .define place params body =>
    layout.line (place ++ " = function(" ++ nameList params ++ ")")
      ++ Stmt.texts layout.deeper body ++ layout.line "end"

def Stmt.texts (layout : Layout) : List Stmt → String
  | [] => ""
  | s :: rest => s.text layout ++ Stmt.texts layout rest

/-- The arms of a branch. The first one begins with `word`. -/
def Stmt.armsText (layout : Layout) (word : String) : List (Arm Expr Stmt) → String
  | [] => ""
  | ⟨cond, body⟩ :: rest =>
    layout.line (word ++ cond.text layout ++ " then") ++ Stmt.texts layout.deeper body
      ++ Stmt.armsText layout "elseif " rest

/-- What a branch does if no arm is taken. -/
def Stmt.otherwiseText (layout : Layout) : Option (List Stmt) → String
  | none => ""
  | some body => layout.line "else" ++ Stmt.texts layout.deeper body

end

end LuaBackend.Lua
