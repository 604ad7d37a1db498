import LuaBackend.Number.Decimal
import LuaBackend.Temporary
import LuaBackend.Tree.Decl

/-!
# Outlines

An outline shows a tree with one line per node and two blanks of
indentation per level: the kind of the node, what distinguishes it, its
type and its position. Parts of a node that need a name stand under a
heading. A part that is not there shows as `<null>`.
-/

namespace LuaBackend

open Text

/-- A line with the lines below it. -/
inductive Outline where
  | node (head : String) (below : List Outline)

namespace Outline

mutual

/-- The text of an outline at a level of indentation. -/
def textAt (level : Nat) : Outline → String
  | node head below =>
    String.join (List.replicate level "  ") ++ head ++ "\n" ++ textsAt (level + 1) below

def textsAt (level : Nat) : List Outline → String
  | [] => ""
  | o :: rest => textAt level o ++ textsAt level rest

end

/-- The text of an outline. -/
def text (o : Outline) : String := o.textAt 0

/-- A line with nothing below it. -/
def leaf (head : String) : Outline := node head []

/-- A part that is not there. -/
def absent : Outline := leaf "<null>"

/-- The first line of an outline. -/
def firstLine (o : Outline) : String :=
  String.ofList (o.text.toList.takeWhile (· ≠ '\n'))

/-- Headings made from names end at a zero character. -/
def upToZero (text : String) : String :=
  String.ofList (text.toList.takeWhile (· ≠ '\x00'))

end Outline

/-- A variable as outlines show it: temporaries by number, all others by
name. -/
def Var.label (v : Var) : String := if v.isTemp then tempName v.id else v.name

/-- A constant as outlines show it. -/
def Const.label : Const → String
  | int value => toString value
  | float value => value.sixDigits
  | string value => "\"" ++ value ++ "\""
  | bool value => if value then "true" else "false"
  | null => "null"
  | this => "this"
  | super => "super"

/-- The word for a way of reaching a member. -/
def Access.label : Access → String
  | inst => "instance"
  | static => "static"
  | anon => "anon"
  | dynamic => "dynamic"
  | closure => "closure"
  | enumCtor => "enum"

/-- The line for an access to a member, without type and position. -/
def MemberRef.label (ref : MemberRef) : String :=
  "Field " ++ ref.access.label ++ " \"" ++ ref.target ++ "\""
    ++ (if ref.owner.isEmpty then "" else " of " ++ ref.owner.dotted)
    ++ (if ref.isMethod then " method" else "")

namespace Expr

open Outline

/-- Type and position, as they end the line of most nodes. -/
def tail (loc : Loc) (type : Ty) : String := " " ++ type.text ++ " " ++ loc.text

mutual

/-- The outline of a tree. -/
def outline : Expr → Outline
  | omitted => absent
  | const loc type value => leaf ("Const " ++ value.label ++ tail loc type)
  | .local loc var => leaf ("Local \"" ++ var.label ++ "\"" ++ tail loc var.type)
  | field loc type ref receiver =>
    node (ref.label ++ tail loc type) (outlineOption receiver)
  | index loc type base position =>
    node ("ArrayIndex" ++ tail loc type) [base.outline, position.outline]
  | paren loc type inner => node ("Paren" ++ tail loc type) [inner.outline]
  | object loc type fields => node ("ObjectDecl" ++ tail loc type) (outlineFields fields)
  | array loc type elements => node ("ArrayDecl" ++ tail loc type) (outlineList elements)
  | typeRef loc _ path => leaf ("TypeExpr " ++ path.dotted ++ " " ++ loc.text)
  | call loc type callee args =>
    node ("Call" ++ tail loc type)
      (node "Callee:" [callee.outline]
        :: (if args.isEmpty then [] else [node "Args:" (outlineList args)]))
  | new loc _ cls _ args => node ("New " ++ cls.dotted ++ " " ++ loc.text) (outlineList args)
  | binary loc type op lhs rhs =>
    node ("Binop (" ++ op.spelling ++ ")" ++ tail loc type) [lhs.outline, rhs.outline]
  | unary loc type op isPost operand =>
    node ("Unop (" ++ op.spelling ++ ")" ++ (if isPost then " postfix" else "") ++ tail loc type)
      [operand.outline]
  | function loc type params _ body =>
    node ("Function" ++ tail loc type) (outlineParams params ++ [outlinePart "Body" body])
  | varDecl loc var init =>
    node ("VarDecl \"" ++ var.label ++ "\"" ++ tail loc var.type) (outlineOption init)
  | block loc type exprs => node ("Block" ++ tail loc type) (outlineList exprs)
  | forIn loc var iterator body =>
    node ("For \"" ++ var.label ++ "\" " ++ loc.text)
      [node "Iterator:" [iterator.outline], outlinePart "Body" body]
  | ite loc type cond onTrue onFalse =>
    node ("If" ++ tail loc type)
      ([node "Condition:" [cond.outline], outlinePart "Then" onTrue]
        ++ (if onFalse.isSome then [outlinePart "Else" onFalse] else []))
  | loop loc test cond body =>
    node ((if test = .before then "While " else "DoWhile ") ++ loc.text)
      [node "Condition:" [cond.outline], outlinePart "Body" body]
  | switch loc type subject cases default =>
    node ("Switch" ++ tail loc type)
      (node "Subject:" [subject.outline] :: (outlineCases cases
        ++ (if default.isSome then [outlinePart "Default" default] else [])))
  | ret loc value => node ("Return " ++ loc.text) (outlineOption value)
  | brk loc => leaf ("Break " ++ loc.text)
  | cont loc => leaf ("Continue " ++ loc.text)
  | throw loc value => node ("Throw " ++ loc.text) [value.outline]
  | cast loc type checked inner =>
    node ("Cast" ++ (checked.map fun path => " checked " ++ path.dotted).getD ""
      ++ tail loc type) [inner.outline]
  | annot loc _ name inner => node ("Meta @:" ++ name ++ " " ++ loc.text) [inner.outline]
  | tryCatch loc type body handlers =>
    node ("TryCatch" ++ tail loc type) (outlinePart "Body" body :: outlineHandlers handlers)
  | enumParam loc type value ctor slot =>
    node ("EnumParameter " ++ ctor ++ "#" ++ toString slot ++ tail loc type) [value.outline]
  | enumIndex loc value => node ("EnumIndex " ++ loc.text) [value.outline]
  | ident loc _ name => leaf ("Ident \"" ++ name ++ "\" " ++ loc.text)

def outlineList : List Expr → List Outline
  | [] => []
  | e :: rest => e.outline :: outlineList rest

def outlineOption : Option Expr → List Outline
  | none => []
  | some e => [e.outline]

/-- An optional part under its heading. -/
def outlinePart (heading : String) : Option Expr → Outline
  | none => node (heading ++ ":") [absent]
  | some e => node (heading ++ ":") [e.outline]

def outlineFields : List (FieldInit Expr) → List Outline
  | [] => []
  | ⟨name, value⟩ :: rest =>
    node (upToZero ("\"" ++ name ++ "\"") ++ ":") [value.outline] :: outlineFields rest

def outlineParams : List (Param Expr) → List Outline
  | [] => []
  | ⟨var, optional, default⟩ :: rest =>
    node ("Param \"" ++ var.label ++ "\" " ++ var.type.text
      ++ (if optional then " optional" else "")) (outlineOption default) :: outlineParams rest

def outlineCases : List (Case Expr) → List Outline
  | [] => []
  | ⟨values, body⟩ :: rest =>
    node "Case:" (outlineList values ++ [outlinePart "Body" body]) :: outlineCases rest

def outlineHandlers : List (Handler Expr) → List Outline
  | [] => []
  | ⟨var, body⟩ :: rest =>
    outlinePart (upToZero ("Catch \"" ++ var.label ++ "\"")) body :: outlineHandlers rest

end

/-- The outline of a tree as text. -/
def dump (e : Expr) : String := e.outline.text

end Expr

open Outline

/-- The outline of a member. -/
def Member.outline (m : Member) : Outline :=
  let word := match m.kind with
    | .method => "Method"
    | .var => "Var"
  node (word ++ " \"" ++ m.target ++ "\"" ++ Expr.tail m.loc m.type) (Expr.outlineOption m.code)

/-- The outline of a class or interface. -/
def ClassDecl.outline (d : ClassDecl) : Outline :=
  let head := (if d.isInterface then "InterfaceDecl " else "ClassDecl ") ++ d.path.dotted
    ++ (if d.isExternal then " extern" else "")
  let base := d.base.toList.map fun path => leaf ("Extends " ++ path.dotted)
  let interfaces := d.interfaces.map fun path => leaf ("Implements " ++ path.dotted)
  let ctor := d.ctor.toList.map fun member => node "Constructor:" [member.outline]
  let statics := if d.statics.isEmpty then []
    else [node "Statics:" (d.statics.map Member.outline)]
  node (head ++ " " ++ d.loc.text)
    (base ++ interfaces ++ ctor ++ d.fields.map Member.outline ++ statics)

/-- The line for a constructor of an enum. -/
def EnumCtor.outline (c : EnumCtor) : Outline :=
  leaf (String.join (("Ctor " ++ c.name ++ " #" ++ toString c.index)
    :: c.params.map fun (name, type) => " " ++ name ++ ":" ++ type.text))

/-- The outline of a declaration. -/
def Decl.outline : Decl → Outline
  | cls decl => decl.outline
  | enum path loc ctors =>
    node ("EnumDecl " ++ path.dotted ++ " " ++ loc.text) (ctors.map EnumCtor.outline)
  | typedef path loc target =>
    leaf ("TypedefDecl " ++ path.dotted ++ " = " ++ target.text ++ " " ++ loc.text)
  | .abstract path loc underlying impl =>
    node ("AbstractDecl " ++ path.dotted ++ " (" ++ underlying.text ++ ") " ++ loc.text)
      (impl.toList.map ClassDecl.outline)

/-- The outline of a declaration as text. -/
def Decl.dump (d : Decl) : String := d.outline.text

end LuaBackend
