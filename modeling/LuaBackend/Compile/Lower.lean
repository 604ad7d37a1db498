import LuaBackend.Compile.Session
import LuaBackend.Normalize.Basic
import LuaBackend.Nulls.Fold
import LuaBackend.Tree.Outline

/-!
# Lowering the members of a declaration

Every body and initial value of a declaration is folded, normalized and
checked. The temporaries of one declaration come from one supply. An
initial value is normalized as an assignment to its member, so that a
block stores into the member from each of its ends.
-/

namespace LuaBackend.Compile

/-- Work that also takes temporaries from a supply. -/
abbrev LowerM := StateT TempSupply Work

/-- Normalization as part of a compilation. -/
def liftNorm {α : Type} (act : Normalize.Norm α) : LowerM α := fun supply =>
  match act supply with
  | .ok value supply => pure (value, supply)
  | .error fault _ => throw (.ofNormalize fault)

/-- The statements of a tree in normal form: the body of a function
literal, or the tree itself. -/
def normalStatements : Expr → Option Expr
  | .function _ _ _ _ body => body
  | e => some e

/-- A tree with comparisons folded and in normal form. A function literal
stays one unless its value goes to an assignee. -/
def lowerCode (code : Expr) (assignee : Option Expr) : LowerM Expr := do
  let session ← getThe Session
  let options := session.options
  let code := if options.foldNulls then Nulls.folded session.admits code else code
  let lowered ← liftNorm <|
    match code, assignee with
    | .function .., none => Normalize.normalizeFunction code
    | _, _ => Normalize.normalize code assignee
  if options.logNormalized then
    log ("=== Normalized ===\n" ++ lowered.dump ++ "=== End Normalized ===\n")
  if options.checkNormalForm then
    match (normalStatements lowered).bind (Expr.violation .statement) with
    | some violation => throw (.notNormal violation)
    | none => pure ()
  return lowered

/-- A variable as the place its initial value is stored in. -/
def memberPlace (owner : TypePath) (isStatic : Bool) (m : Member) : Expr :=
  if isStatic then
    .field m.loc m.type { access := .static, name := m.name, owner, native := m.native } none
  else
    .field m.loc m.type { access := .inst, name := m.name, native := m.native }
      (some (.const m.loc (.inst owner []) .this))

/-- A member with its code in normal form, the value stored in the given
place. -/
def lowerMember (place : Option Expr) (m : Member) : LowerM Member := do
  match m.code with
  | none => return m
  | some code =>
    logPhase "Phase 3: Normalizing" m.name
    return { m with lowered := some (← lowerCode code place) }

/-- Several members with their code in normal form. -/
def lowerMembers (owner : TypePath) (isStatic : Bool) : List Member → LowerM (List Member)
  | [] => return []
  | m :: rest => do
    let place := if m.kind = .var then some (memberPlace owner isStatic m) else none
    let m ← lowerMember place m
    return m :: (← lowerMembers owner isStatic rest)

/-- A constructor with its code in normal form. -/
def lowerCtor : Option Member → LowerM (Option Member)
  | none => return none
  | some m => return some (← lowerMember none m)

/-- A class with the code of its members in normal form. -/
def lowerClass (decl : ClassDecl) : LowerM ClassDecl := do
  if decl.isExternal || decl.isInterface then return decl
  let ctor ← lowerCtor decl.ctor
  let fields ← lowerMembers decl.path false decl.fields
  let statics ← lowerMembers decl.path true decl.statics
  return { decl with ctor, fields, statics }

/-- A declaration with its code in normal form. -/
def lowerDecl (decl : Decl) : LowerM Decl := do
  match decl with
  | .cls decl => return .cls (← lowerClass decl)
  | .abstract path loc underlying (some impl) =>
    return .abstract path loc underlying (some (← lowerClass impl))
  | decl => return decl

end LuaBackend.Compile
