import LuaBackend.Emit.Decl
import LuaBackend.Proofs.Emit.Operators
import LuaBackend.Proofs.Emit.Results
import LuaBackend.Proofs.Lua.Strings

/-!
# The keys of members

A member is an entry of a Lua table, and its key is spelled behind a
point, as a string in brackets, or in front of the value in a table
constructor. `Denotes use name key` says that somewhere in generated code
a use of the name is read by Lua as that key. A reserved word gets an
underscore wherever it is written as a Lua name, and a member looked up by
name at run time is written as a string, without one. So a reserved word
denotes two keys, and every other name one.
-/

namespace LuaBackend

open List Bool Lua

namespace Lua

variable {name : String}

def freeName? (cs : List Char) : Option String :=
  if isName (String.ofList cs) && !reserved.contains (String.ofList cs) then some (String.ofList cs)
  else none

def bracketed? (cs : List Char) : Option String :=
  match literal? cs with
  | some (key, [']']) => some key
  | _ => none

def suffixKey? (suffix : String) : Option String :=
  match suffix.toList with
  | '.' :: cs => freeName? cs
  | '[' :: cs => bracketed? cs
  | _ => none

def entryKey? (key : String) : Option String :=
  match key.toList with
  | '[' :: cs => bracketed? cs
  | cs => freeName? cs

theorem isKeyword_append_underscore (name : String) : isKeyword (name ++ "_") = false := by
  have hlast : ∀ word ∈ keywords, word.toList.getLast? ≠ some '_' := by decide
  refine eq_false_iff.2 fun h => hlast _ (contains_iff_mem.1 h) ?_
  rw [String.toList_append]
  exact getLast?_concat

theorem isName_of_isKeyword (h : isKeyword name = true) : isName name = true := by
  have hnames : ∀ word ∈ keywords, isName word = true := by decide
  exact hnames _ (contains_iff_mem.1 h)

theorem isFreeName_identifier (h : isName name = true) : IsFreeName (identifier name) := by
  have hreserved : ∀ word ∈ reserved, isKeyword word = true := by decide
  unfold identifier
  split
  · refine ⟨Emit.isName_append_underscore h, eq_false_iff.2 fun hmem => ?_⟩
    have hword := hreserved _ (contains_iff_mem.1 hmem)
    exact absurd ((isKeyword_append_underscore name).symm.trans hword) false_ne_true
  · rename_i hkey
    exact ⟨h, eq_false_iff.2 fun hmem => hkey (hreserved _ (contains_iff_mem.1 hmem))⟩

theorem identifier_of_not_isName (h : isName name = false) : identifier name = name := by
  refine if_neg fun hkey => ?_
  exact absurd (h.symm.trans (isName_of_isKeyword hkey)) false_ne_true

theorem freeName?_of_isFreeName (h : IsFreeName name) : freeName? name.toList = some name := by
  rw [freeName?, String.ofList_toList, h.1, h.2]
  rfl

theorem bracketed?_quote (name : String) :
    bracketed? ((quote name).toList ++ [']']) = some name := by
  rw [bracketed?, literal?_quote]
  rfl

theorem suffixKey?_key (name : String) : suffixKey? ("[" ++ quote name ++ "]") = some name := by
  have htext : ("[" ++ quote name ++ "]").toList = '[' :: ((quote name).toList ++ [']']) := by
    rw [String.toList_append, String.toList_append]
    rfl
  rw [suffixKey?, htext]
  exact bracketed?_quote name

/-- A member is read as its identifier, however it is spelled. -/
theorem suffixKey?_member (name : String) : suffixKey? (member name) = some (identifier name) := by
  unfold member
  split
  · rename_i h
    have htext : ("." ++ identifier name).toList = '.' :: (identifier name).toList := by
      rw [String.toList_append]
      rfl
    rw [suffixKey?, htext]
    exact freeName?_of_isFreeName (isFreeName_identifier h)
  · rename_i h
    rw [suffixKey?_key, identifier_of_not_isName (eq_false_iff.2 h)]

theorem entryKey?_tableKey (name : String) :
    entryKey? (tableKey name) = some (identifier name) := by
  unfold tableKey
  split
  · rename_i h
    have hfree := isFreeName_identifier h
    have hread := freeName?_of_isFreeName hfree
    unfold entryKey?
    split
    · rename_i cs heq
      have hname := hfree.1
      unfold isName at hname
      rw [heq] at hname
      exact absurd hname false_ne_true
    · exact hread
  · rename_i h
    have htext : ("[" ++ quote name ++ "]").toList = '[' :: ((quote name).toList ++ [']']) := by
      rw [String.toList_append, String.toList_append]
      rfl
    rw [entryKey?, htext, identifier_of_not_isName (eq_false_iff.2 h)]
    exact bracketed?_quote name

end Lua

namespace Emit

open Emission

variable {name cls : String} {object code place value : Lua.Expr} {layout : Lua.Layout}
variable {c c' : Context} {m : Member} {part : Option Expr} {callee : Emission}
variable {args : List Emission}
variable {use : Use}

/-! ## Uses of a name -/

/-- What a name is used for. -/
inductive Use where
  /-- A field of an object literal. -/
  | literal
  /-- A member of an object of a known class. -/
  | inst
  /-- A member of an anonymous object. -/
  | anon
  /-- A member of a class itself. -/
  | static
  /-- A member looked up at run time. -/
  | dynamic
  /-- A member of the object that `super` stands for. -/
  | inherited
  /-- A method that is called. -/
  | called
  /-- A member that a class declares. -/
  | declared
deriving DecidableEq

def Use.ofAccess? : Access → Option Use
  | .inst => some .inst
  | .anon => some .anon
  | .dynamic => some .dynamic
  | _ => none

def Use.key : Use → String → String
  | .dynamic, name => name
  | _, name => identifier name

def Accesses (layout : Lua.Layout) (code object : Lua.Expr) (key : String) : Prop :=
  ∃ suffix, code.text layout = object.text layout ++ suffix ∧ suffixKey? suffix = some key

/-- Somewhere in generated code the name is used so, and read by Lua as
the key. -/
inductive Denotes : Use → String → String → Prop
  /-- A member of an object is read. -/
  | read {use loc type ref receiver scope n n' layout code object key} :
      Use.ofAccess? ref.access = some use → receiver.isSuper = false →
      valueOf (.field loc type ref (some receiver)) scope n = .ok code n' →
      ((emit receiver).head : EmitM _) scope n = .ok object n' → Accesses layout code object key →
      Denotes use ref.target key
  /-- A member of an object is stored into. -/
  | written {use loc type fieldLoc fieldType ref receiver rhs last scope n n₁ n' layout place
      value object key} :
      Use.ofAccess? ref.access = some use → receiver.isSuper = false →
      ((emit (.binary loc type .assign (.field fieldLoc fieldType ref (some receiver)) rhs)).stmt
        last : EmitM _) scope n = .ok [.assign place value] n' →
      ((emit receiver).head : EmitM _) scope n = .ok object n₁ → Accesses layout place object key →
      Denotes use ref.target key
  /-- A member of a class is read. -/
  | static {loc type ref receiver scope n n' layout code key} : ref.access = .static →
      valueOf (.field loc type ref receiver) scope n = .ok code n' →
      Accesses layout code (.name ref.owner.global) key → Denotes .static ref.target key
  /-- A member of `super` is read. -/
  | inherited {use loc type ref receiver scope n n' layout code key} :
      Use.ofAccess? ref.access = some use → receiver.isSuper = true →
      valueOf (.field loc type ref (some receiver)) scope n = .ok code n' →
      Accesses layout code (.name "self") key → Denotes .inherited ref.target key
  /-- A method of an object is called by its name. -/
  | called {loc type fieldLoc fieldType ref receiver args scope n n' layout object name values
      key} :
      valueOf (.call loc type (.field fieldLoc fieldType ref (some receiver)) args) scope n =
        .ok (.method object name values) n' →
      (Lua.Expr.method object name values).text layout = object.text layout ++ ":" ++ key ++ "("
        ++ ", ".intercalate (Lua.Expr.texts layout values) ++ ")" →
      Denotes .called ref.target key
  /-- An object literal gives a value to a field. -/
  | literal {loc type fields scope n n' layout before v after f entry key} :
      valueOf (.object loc type fields) scope n = .ok (.object (before ++ v :: after)) n' →
      fields[before.length]? = some f →
      Lua.Expr.fieldsText layout (before ++ v :: after) = Lua.Expr.fieldsText layout before ++ ","
        ++ entry ++ "=" ++ v.value.text layout ++ Lua.Expr.fieldsText layout after →
      entryKey? entry = some key → Denotes .literal f.name key
  /-- A class declares a method of its objects. -/
  | method {cls members context code context' layout m place value key} {i : Nat} :
      prototypeMethods cls members context = .ok code context' →
      (members.filter fun m => m.kind = .method)[i]? = some m →
      code[i]? = some (.assign place value) →
      Accesses layout place (.name (cls ++ ".prototype")) key → Denotes .declared m.target key
  /-- A class declares a method of its own, or a variable with a value. -/
  | staticMember {cls m context context' layout place value key} : m.lowered = none →
      staticMembers cls [m] context = .ok [.assign place value] context' →
      Accesses layout place (.name cls) key → Denotes .declared m.target key
  /-- A class declares a variable of its objects. -/
  | initial {owner m context context' layout place value key} : m.lowered = none →
      initializer owner m context = .ok [.assign place value] context' →
      Accesses layout place (.name owner) key → Denotes .declared m.target key

/-- The text behind the object decides the key. -/
theorem accesses_iff_of_text {suffix key : String}
    (htext : code.text layout = object.text layout ++ suffix) :
    Accesses layout code object key ↔ suffixKey? suffix = some key := by
  refine ⟨fun h => ?_, fun h => ⟨suffix, htext, h⟩⟩
  obtain ⟨suffix', htext', hkey⟩ := h
  rw [htext, String.append_right_inj] at htext'
  rw [htext']
  exact hkey

theorem accesses_member {key : String} :
    Accesses layout (.member object name) object key ↔ key = identifier name := by
  have htext : (Lua.Expr.member object name).text layout =
      object.text layout ++ member name := rfl
  rw [accesses_iff_of_text htext, suffixKey?_member, Option.some_inj, eq_comm]

theorem accesses_key {key : String} :
    Accesses layout (.key object name) object key ↔ key = name := by
  have htext : (Lua.Expr.key object name).text layout =
      object.text layout ++ ("[" ++ quote name ++ "]") := by
    change object.text layout ++ "[" ++ quote name ++ "]" = _
    rw [String.append_assoc, String.append_assoc, String.append_assoc]
  rw [accesses_iff_of_text htext, suffixKey?_key, Option.some_inj, eq_comm]

section Written

variable {loc fieldLoc : Loc} {type fieldType : Ty} {ref : MemberRef} {receiver : Expr} {use : Use}
variable {scope : Scope} {n n' : UInt32}

def accessCode (access : Access) (object : Lua.Expr) (name : String) : Lua.Expr :=
  match access with
  | .dynamic => .key object name
  | _ => .member object name

theorem accesses_accessCode {access : Access} {key : String} (hu : Use.ofAccess? access = some use)
    :
    Accesses layout (accessCode access object name) object key ↔ key = use.key name := by
  cases access with
  | inst | anon =>
    cases hu
    exact accesses_member
  | dynamic =>
    cases hu
    exact accesses_key
  | static | closure | enumCtor => cases hu

/-- A member of an object, but not of the superclass. -/
theorem value_field (hu : Use.ofAccess? ref.access = some use) (hsuper : receiver.isSuper = false) :
    valueOf (.field loc type ref (some receiver)) = do
      let object ← (emit receiver).head
      return accessCode ref.access object ref.target := by
  obtain ⟨access, name, owner, isMethod, native⟩ := ref
  cases access with
  | inst | anon | dynamic =>
    change ite ((emit receiver).source.isSuper = true) _ _ = _
    rw [source_emit, if_neg (eq_false_iff.1 hsuper)]
    rfl
  | static | closure | enumCtor => cases hu

theorem value_field_super (hu : Use.ofAccess? ref.access = some use)
    (hsuper : receiver.isSuper = true) :
    valueOf (.field loc type ref (some receiver)) = do
      let base := (← EmitM.scope).base
      if base.isEmpty then unsupported .superWithoutBase loc
      else return .member (.name "self") ref.target := by
  obtain ⟨access, name, owner, isMethod, native⟩ := ref
  cases access with
  | inst | anon | dynamic =>
    change ite ((emit receiver).source.isSuper = true) _ _ = _
    rw [source_emit, if_pos hsuper]
    rfl
  | static | closure | enumCtor => cases hu

theorem value_field_static (hstatic : ref.access = .static) :
    valueOf (.field loc type ref part) =
      if ref.owner.isEmpty then unsupported .staticWithoutOwner loc
      else return .member (.name ref.owner.global) ref.target := by
  obtain ⟨access, name, owner, isMethod, native⟩ := ref
  cases hstatic
  rfl

/-- A member that is read is accessed by its use. -/
theorem eq_accessCode_of_read {n₁ : UInt32} (hu : Use.ofAccess? ref.access = some use)
    (hsuper : receiver.isSuper = false)
    (hvalue : valueOf (.field loc type ref (some receiver)) scope n = .ok code n')
    (hhead : ((emit receiver).head : EmitM _) scope n = .ok object n₁) :
    code = accessCode ref.access object ref.target := by
  rw [value_field hu hsuper, bind_of_ok hhead] at hvalue
  cases hvalue
  rfl

theorem eq_member_of_static (hstatic : ref.access = .static)
    (hvalue : valueOf (.field loc type ref part) scope n = .ok code n') :
    code = .member (.name ref.owner.global) ref.target := by
  rw [value_field_static hstatic] at hvalue
  split at hvalue
  · cases hvalue
  · cases hvalue
    rfl

theorem eq_member_of_inherited (hu : Use.ofAccess? ref.access = some use)
    (hsuper : receiver.isSuper = true)
    (hvalue : valueOf (.field loc type ref (some receiver)) scope n = .ok code n') :
    code = .member (.name "self") ref.target := by
  rw [value_field_super hu hsuper] at hvalue
  obtain ⟨scope', n₁, -, hvalue⟩ := exists_of_bind hvalue
  dsimp only at hvalue
  split at hvalue
  · cases hvalue
  · cases hvalue
    rfl

/-- An assignment stores into what its target is read as. -/
theorem exists_of_written {target rhs : Expr} {last : Bool}
    (h : ((emit (.binary loc type .assign target rhs)).stmt last : EmitM _) scope n =
      .ok [.assign place value] n') :
    ∃ n₁, valueOf target scope n = .ok place n₁ := by
  obtain ⟨place', n₁, hplace, h⟩ := exists_of_bind h
  obtain ⟨value', n₂, -, h⟩ := exists_of_bind h
  cases h
  exact ⟨n₁, hplace⟩

def CallsAs (target : String) (code : Lua.Expr) : Prop :=
  ∀ object name values, code = .method object name values → name = target

theorem ensures_callValue {target : String} :
    Ensures scope (callValue callee args) (CallsAs target) :=
  ensures_true.bind fun _ _ => ensures_true.map fun _ _ _ _ _ h => by cases h

theorem ensures_callMember :
    Ensures scope (callMember loc callee ref receiver args) (CallsAs ref.target) := by
  unfold callMember
  split
  · exact ensures_callValue
  split
  · refine ensures_read ?_
    dsimp only
    split
    · exact ensures_unsupported
    · exact ensures_true.map fun _ _ _ _ _ h => by cases h
  split
  · split
    · refine ensures_true.bind fun _ _ => ensures_true.map fun _ _ _ _ _ h => ?_
      cases h
      rfl
    · exact ensures_callValue
  · exact ensures_callValue

/-- A method is called by the name of its member. -/
theorem eq_target_of_called {args : List Expr} {values : List Lua.Expr}
    (h : valueOf (.call loc type (.field fieldLoc fieldType ref (some receiver)) args)
      scope n = .ok (.method object name values) n') : name = ref.target := by
  have hvalue : valueOf (.call loc type (.field fieldLoc fieldType ref (some receiver)) args) =
      callMember loc (emit (.field fieldLoc fieldType ref (some receiver))) ref
        (emit receiver).source (emitList args) := rfl
  rw [hvalue] at h
  exact ensures_callMember n _ n' h _ _ _ rfl

end Written

theorem name_of_fieldValues : ∀ {fields : List (FieldInit Emission)}, ∀ {scope n values n'},
    fieldValues fields scope n = .ok values n' →
      values.map FieldInit.name = fields.map FieldInit.name
  | [], _, _, _, _, h => by
    cases h
    rfl
  | ⟨name, e⟩ :: rest, _, _, _, _, h => by
    obtain ⟨v, n₁, -, h⟩ := exists_of_bind h
    obtain ⟨vs, n₂, hvs, h⟩ := exists_of_bind h
    cases h
    exact congrArg (name :: ·) (name_of_fieldValues hvs)

/-- The fields of an object literal keep their names. -/
theorem name_of_literal {loc : Loc} {type : Ty} {fields : List (FieldInit Expr)}
    {values : List (FieldInit Lua.Expr)} {scope : Scope} {n n' : UInt32}
    (h : valueOf (.object loc type fields) scope n = .ok (.object values) n') :
    values.map FieldInit.name = fields.map FieldInit.name := by
  obtain ⟨values', n₁, hvalues, h⟩ := exists_of_bind h
  cases h
  rw [name_of_fieldValues hvalues, emitFields_eq_map, map_map]
  rfl

theorem fieldsText_append (layout : Lua.Layout) (before after : List (FieldInit Lua.Expr))
    (v : FieldInit Lua.Expr) : Lua.Expr.fieldsText layout (before ++ v :: after) =
      Lua.Expr.fieldsText layout before ++ "," ++ tableKey v.name ++ "="
        ++ v.value.text layout ++ Lua.Expr.fieldsText layout after := by
  induction before with
  | nil => rfl
  | cons f rest ih =>
    change "," ++ tableKey f.name ++ "=" ++ f.value.text layout
      ++ Lua.Expr.fieldsText layout (rest ++ v :: after) = "," ++ tableKey f.name ++ "="
        ++ f.value.text layout ++ Lua.Expr.fieldsText layout rest ++ "," ++ tableKey v.name
        ++ "=" ++ v.value.text layout ++ Lua.Expr.fieldsText layout after
    rw [ih]
    simp only [String.append_assoc]

/-- Statements belong to the members in order, one each. -/
theorem forMembers_getElem? {act : Member → Write Lua.Block} {P : Member → Lua.Stmt → Prop}
    (hact : ∀ m c block c', act m c = .ok block c' → ∃ s, block = [s] ∧ P m s) :
    ∀ (members : List Member) {c code c'}, forMembers act members c = .ok code c' →
      ∀ (i : Nat) m s, members[i]? = some m → code[i]? = some s → P m s
  | [], _, _, _, _, i, m, s, hm, _ => by
    rw [getElem?_nil] at hm
    cases hm
  | m :: rest, _, _, _, h, i, m', s, hm, hs => by
    obtain ⟨block, c₁, hblock, h⟩ := exists_of_run_bind h
    obtain ⟨code, c₂, hcode, h⟩ := exists_of_run_bind h
    cases h
    obtain ⟨s₀, rfl, hP⟩ := hact _ _ _ _ hblock
    cases i with
    | zero =>
      cases hm
      cases hs
      exact hP
    | succ i => exact forMembers_getElem? hact rest hcode i m' s hm hs

/-- A method is stored under the name of its member. -/
theorem eq_member_of_method {members : List Member} {code : Lua.Block} {i : Nat}
    (h : prototypeMethods cls members c = .ok code c')
    (hm : (members.filter fun m => m.kind = .method)[i]? = some m)
    (hs : code[i]? = some (.assign place value)) :
    place = .member (.name (cls ++ ".prototype")) m.target := by
  refine forMembers_getElem? (P := fun m s => ∀ place value, s = .assign place value →
    place = .member (.name (cls ++ ".prototype")) m.target) (fun m c block c' h => ?_) _ h i m _ hm
    hs _ _ rfl
  obtain ⟨f, c₁, -, h⟩ := exists_of_run_bind h
  cases h
  refine ⟨_, rfl, fun place value hs => ?_⟩
  cases hs
  rfl

theorem eq_member_of_initial {owner : String} (hlow : m.lowered = none)
    (h : initializer owner m c = .ok [.assign place value] c') :
    place = .member (.name owner) m.target := by
  obtain ⟨name, kind, type, code, native, loc, lowered⟩ := m
  cases hlow
  cases code with
  | none => cases h
  | some =>
    obtain ⟨v, c₁, -, h⟩ := exists_of_run_bind h
    cases h
    rfl

theorem eq_member_of_staticMember (hlow : m.lowered = none)
    (h : staticMembers cls [m] c = .ok [.assign place value] c') :
    place = .member (.name cls) m.target := by
  obtain ⟨block, c₁, hblock, h⟩ := exists_of_run_bind h
  obtain ⟨rest, c₂, hrest, h⟩ := exists_of_run_bind h
  cases hrest
  rw [append_nil] at h
  have hone : block = [.assign place value] := by
    cases h
    rfl
  subst hone
  cases hkind : m.kind with
  | method =>
    simp only [hkind] at hblock
    obtain ⟨f, c₃, -, hblock⟩ := exists_of_run_bind hblock
    cases hblock
    rfl
  | var =>
    simp only [hkind] at hblock
    split at hblock
    · exact eq_member_of_initial hlow hblock
    · cases hblock

/-! ## The key of each use -/

/-- A use of a name is read as no other key. -/
theorem Denotes.eq_key {key : String} (h : Denotes use name key) : key = use.key name := by
  cases h with
  | read hu hsuper hvalue hhead hkey =>
    rw [eq_accessCode_of_read hu hsuper hvalue hhead] at hkey
    exact (accesses_accessCode hu).1 hkey
  | written hu hsuper hstmt hhead hkey =>
    obtain ⟨n₂, hvalue⟩ := exists_of_written hstmt
    rw [eq_accessCode_of_read hu hsuper hvalue hhead] at hkey
    exact (accesses_accessCode hu).1 hkey
  | static hstatic hvalue hkey =>
    rw [eq_member_of_static hstatic hvalue] at hkey
    exact accesses_member.1 hkey
  | inherited hu hsuper hvalue hkey =>
    rw [eq_member_of_inherited hu hsuper hvalue] at hkey
    exact accesses_member.1 hkey
  | @called _ _ _ _ ref _ _ _ _ _ layout object name values _ hvalue htext =>
    rw [eq_target_of_called hvalue] at htext
    change object.text layout ++ ":" ++ identifier ref.target ++ "("
      ++ ", ".intercalate (Lua.Expr.texts layout values) ++ ")" = _ at htext
    simp only [String.append_assoc, String.append_right_inj] at htext
    exact (String.append_left_inj _).1 htext.symm
  | @literal _ _ fields _ _ _ layout before v after f entry _ hvalue hf htext hkey =>
    have hname : v.name = f.name := by
      have hnames := congrArg (·[before.length]?) (name_of_literal hvalue)
      simpa [hf] using hnames
    -- The text around the entry is known, so only one text can stand between.
    rw [fieldsText_append] at htext
    simp only [String.append_assoc, String.append_right_inj] at htext
    have hentry : tableKey v.name = entry := (String.append_left_inj _).1 htext
    rw [← hentry, entryKey?_tableKey, hname] at hkey
    exact (Option.some.inj hkey).symm
  | method h hm hs hkey =>
    rw [eq_member_of_method h hm hs] at hkey
    exact accesses_member.1 hkey
  | staticMember hlow h hkey =>
    rw [eq_member_of_staticMember hlow h] at hkey
    exact accesses_member.1 hkey
  | initial hlow h hkey =>
    rw [eq_member_of_initial hlow h] at hkey
    exact accesses_member.1 hkey

def someObject : Expr := .local {} ⟨1, "o", .dynamic⟩

theorem head_someObject :
    ((emit someObject).head : EmitM _) {} 1 = .ok (.name (localName ⟨1, "o", .dynamic⟩)) 1 := rfl

/-- Every access to an object occurs. -/
theorem denotes_access (access : Access) (name : String) (hu : Use.ofAccess? access = some use) :
    Denotes use name (use.key name) := by
  have hvalue : valueOf (.field {} .dynamic { access, name } (some someObject)) {} 1 =
      .ok (accessCode access (.name (localName ⟨1, "o", .dynamic⟩)) name) 1 := by
    rw [value_field hu rfl, bind_of_ok head_someObject]
    rfl
  have hkey : Accesses {} (accessCode access (.name (localName ⟨1, "o", .dynamic⟩)) name)
      (.name (localName ⟨1, "o", .dynamic⟩)) (use.key name) := (accesses_accessCode hu).2 rfl
  exact .read hu rfl hvalue head_someObject hkey

theorem denotes_static (name : String) : Denotes .static name (identifier name) := by
  have hvalue :
      valueOf (.field {} .dynamic { access := .static, name, owner := ⟨[], "C"⟩ } none) {} 1 =
        .ok (.member (.name (TypePath.global ⟨[], "C"⟩)) name) 1 := rfl
  have hkey : Accesses {} (.member (.name (TypePath.global ⟨[], "C"⟩)) name)
      (.name (TypePath.global ⟨[], "C"⟩)) (identifier name) := accesses_member.2 rfl
  exact .static rfl hvalue hkey

theorem denotes_inherited (name : String) : Denotes .inherited name (identifier name) := by
  have hvalue : valueOf (.field {} .dynamic { access := .inst, name }
      (some (.const {} .dynamic .super))) { base := "B" } 1 =
        .ok (.member (.name "self") name) 1 := rfl
  have hkey : Accesses {} (.member (.name "self") name) (.name "self") (identifier name) :=
    accesses_member.2 rfl
  exact .inherited rfl rfl hvalue hkey

/-- A method with a name for Lua is called by it. -/
theorem denotes_called (h : isName name = true) :
    Denotes .called name (identifier name) := by
  have hvalue : valueOf (.call {} .dynamic
      (.field {} .dynamic { access := .inst, name, isMethod := true } (some someObject))
        []) {} 1 = .ok (.method (.name (localName ⟨1, "o", .dynamic⟩)) name []) 1 := by
    change (ite (isName name = true) _ _ : EmitM Lua.Expr) {} 1 = _
    rw [if_pos h]
    rfl
  have htext : (Lua.Expr.method (.name (localName ⟨1, "o", .dynamic⟩)) name []).text {} =
      (Lua.Expr.name (localName ⟨1, "o", .dynamic⟩)).text {} ++ ":" ++ identifier name
        ++ "(" ++ ", ".intercalate (Lua.Expr.texts {} []) ++ ")" := rfl
  exact .called hvalue htext

theorem denotes_literal (name : String) : Denotes .literal name (identifier name) := by
  have hvalue : valueOf (.object {} .dynamic [⟨name, .nullLit {}⟩]) {} 1 =
      .ok (.object ([] ++ ⟨name, .nil⟩ :: [])) 1 := rfl
  exact .literal hvalue rfl (fieldsText_append {} [] [] ⟨name, .nil⟩) (entryKey?_tableKey name)

theorem denotes_declared (name : String) : Denotes .declared name (identifier name) := by
  let m : Member :=
    { name, kind := .method, type := .dynamic, code := some (.function {} .dynamic [] .void none) }
  have hcode : prototypeMethods "C" [m] {} =
      .ok [.assign (.member (.name ("C" ++ ".prototype")) name) (.function ["self"] [])] {} := rfl
  have hkey : Accesses {} (.member (.name ("C" ++ ".prototype")) name)
      (.name ("C" ++ ".prototype")) (identifier name) := accesses_member.2 rfl
  have hm : ([m].filter fun m => m.kind = .method)[0]? = some m := rfl
  exact .method hcode hm rfl hkey

/-- Every name can be used in every way, except that a method is called by a
name only if Lua allows it. -/
theorem denotes_key (h : use = .called → isName name = true) :
    Denotes use name (use.key name) := by
  cases use with
  | inst => exact denotes_access .inst name rfl
  | anon => exact denotes_access .anon name rfl
  | dynamic => exact denotes_access .dynamic name rfl
  | static => exact denotes_static name
  | inherited => exact denotes_inherited name
  | called => exact denotes_called (h rfl)
  | literal => exact denotes_literal name
  | declared => exact denotes_declared name

/-- A key is the name, or a reserved word with an underscore. -/
theorem Use.key_cases (use : Use) (name : String) :
    use.key name = name ∨ isKeyword name = true ∧ use.key name = name ++ "_" := by
  have hidentifier : identifier name = name ∨
      isKeyword name = true ∧ identifier name = name ++ "_" := by
    unfold identifier
    split
    · rename_i hword
      exact .inr ⟨hword, rfl⟩
    · exact .inl rfl
  cases use with
  | dynamic => exact .inl rfl
  | _ => exact hidentifier

theorem Use.key_of_not_isKeyword (h : isKeyword name = false) (use : Use) :
    use.key name = name :=
  (use.key_cases name).resolve_right fun hword => absurd hword.1 (eq_false_iff.1 h)

/-- A key of two names is a reserved word with its underscore. -/
theorem Use.eq_of_key_eq {a b : String} (use use' : Use) (h : use.key a = use'.key b) :
    a = b ∨ (isKeyword a = true ∧ b = a ++ "_") ∨ (isKeyword b = true ∧ a = b ++ "_") := by
  rcases use.key_cases a with ha | ⟨hword, ha⟩
  · rcases use'.key_cases b with hb | ⟨hword, hb⟩
    · exact .inl (ha.symm.trans (h.trans hb))
    · exact .inr (.inr ⟨hword, ha.symm.trans (h.trans hb)⟩)
  · rcases use'.key_cases b with hb | ⟨-, hb⟩
    · exact .inr (.inl ⟨hword, hb.symm.trans (h.symm.trans ha)⟩)
    · exact .inl ((String.append_left_inj _).1 (ha.symm.trans (h.trans hb)))

/-- **All uses of a name denote one key unless it is a reserved word.** A
member looked up at run time has the name itself for its key, and every
other use the identifier made of it, which has an underscore behind a
reserved word. Two names share a key only if one of them is a reserved word
and the other that word with an underscore. -/
theorem member_denotes_one_key_iff (name : String) :
    (∀ use key, Denotes use name key → key = use.key name) ∧
    (∀ use, (use = .called → isName name = true) → Denotes use name (use.key name)) ∧
    ((∀ use use' key key', Denotes use name key → Denotes use' name key' → key = key') ↔
      isKeyword name = false) ∧
    ∀ other use use' key, other ≠ name → Denotes use name key → Denotes use' other key →
      (isKeyword name = true ∧ other = name ++ "_") ∨
        (isKeyword other = true ∧ name = other ++ "_") := by
  refine ⟨fun _ _ => Denotes.eq_key, fun _ => denotes_key, ⟨fun h => ?_, fun h => ?_⟩, ?_⟩
  · -- A field of a literal and a lookup at run time tell the two keys of a reserved word apart.
    refine eq_false_iff.2 fun hword => ?_
    have hsame := h _ _ _ _ (denotes_literal name) (denotes_access .dynamic name rfl)
    rw [identifier, if_pos hword] at hsame
    have hlength := congrArg (fun s => s.toList.length) hsame
    rw [String.toList_append, length_append] at hlength
    exact absurd hlength (Nat.ne_of_gt (Nat.lt_succ_self _))
  · intro use use' key key' hkey hkey'
    rw [hkey.eq_key, hkey'.eq_key, Use.key_of_not_isKeyword h, Use.key_of_not_isKeyword h]
  · intro other use use' key hne hkey hkey'
    exact (Use.eq_of_key_eq use use' (hkey.eq_key.symm.trans hkey'.eq_key)).resolve_left
      fun heq => hne heq.symm

/-- **A reserved word denotes two keys**, and shares one of them with
another name: an object literal stores a field `end` under `end_`, a lookup
at run time reads `end`, and a field `end_` has the key `end_` as well. -/
theorem reserved_word_denotes_two_keys :
    Denotes .literal "end" "end_" ∧ Denotes .dynamic "end" "end" ∧ Denotes .literal "end_" "end_" :=
  ⟨denotes_literal "end", denotes_access .dynamic "end" rfl, denotes_literal "end_"⟩

end Emit

end LuaBackend
