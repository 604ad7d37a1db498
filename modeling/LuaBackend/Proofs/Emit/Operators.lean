import LuaBackend.Proofs.Emit.Source
import LuaBackend.Proofs.Lua.LocalNames
import LuaBackend.Proofs.Lua.Reading

/-!
# Operators are read back

`operatorTree` says what the text of an operator expression should be read
as: the operators and helpers that renderings choose, over the same
operands, without wrappers. The text is read as that tree, whatever the
nesting, and an update of a variable as an assignment of the operation to
it.
-/

namespace LuaBackend.Emit

open Emission Option String

open Lua (Term Spells SpellsHead)

variable {op : BinaryOp} {isPost : Bool} {code : Lua.Expr} {tree : Term}
variable {name : String}

def helperTerm (name : String) : Term :=
  match Text.segments '.' name with
  | [object, member] => .member (.name object) member
  | _ => .name name

def integerTerm : Int → Term
  | .ofNat n => .number n
  | .negSucc n => .neg (.number (n + 1))

def operationTree (rendering : Lua.Rendering) (lhs rhs : Term) : Option Term :=
  match rendering with
  | .operator op => some (.binary op lhs rhs)
  | .helper name => some (.call (helperTerm name) [lhs, rhs])
  | .none => none

/-- The tree of an expression of operators over constants and locals,
without parentheses, annotations and unchecked casts. -/
def operatorTree : Expr → Option Term
  | .const _ _ (.int value) => some (integerTerm value)
  | .const _ _ (.bool value) => some (.bool value)
  | .const _ _ .null => some .nil
  | .local _ var =>
    if var.isTemp || Lua.isName var.name then some (.name (Lua.localName var)) else none
  | .paren _ _ inner => operatorTree inner
  | .annot _ _ _ inner => operatorTree inner
  | .cast _ _ none inner => operatorTree inner
  | .unary _ _ .not _ operand => return .not (← operatorTree operand)
  | .unary _ _ .neg _ operand => return .neg (← operatorTree operand)
  | .unary _ _ .negBits _ operand =>
    return .call (helperTerm "_hx_bit.bnot") [← operatorTree operand]
  | .binary _ type op lhs rhs => do
    let l ← operatorTree lhs
    let r ← operatorTree rhs
    operationTree (Lua.rendering op lhs.type rhs.type type) l r
  | _ => none

def isBareLocal : Expr → Bool
  | .local _ _ => true
  | .annot _ _ _ inner => isBareLocal inner
  | .cast _ _ none inner => isBareLocal inner
  | _ => false

theorem isName_tempName (id : UInt32) : Lua.isName (tempName id) = true := by
  unfold Lua.isName
  rw [Lua.tempName_toList]
  have hdigits : (Lua.tempDigits id).all Lua.isNamePart = true := by
    refine List.all_eq_true.2 fun c hc => ?_
    have hdigit : c.isDigit = true := Nat.isDigit_of_mem_toDigits (by decide) (by decide) hc
    rw [Lua.isNamePart, hdigit, Bool.or_true]
  exact hdigits

theorem isName_append_underscore (h : Lua.isName name = true) :
    Lua.isName (name ++ "_") = true := by
  unfold Lua.isName at h ⊢
  rw [toList_append]
  cases hname : name.toList with
  | nil =>
    rw [hname] at h
    cases h
  | cons c cs =>
    rw [hname] at h
    have hparts : Lua.isNameStart c = true ∧ cs.all Lua.isNamePart = true :=
      Bool.and_eq_true_iff.1 h
    simp only [List.cons_append, List.all_append, hparts.1, hparts.2, Bool.true_and]
    rfl

/-- The name of a local is a name for Lua. -/
theorem isFreeName_localName {var : Var} (h : (var.isTemp || Lua.isName var.name) = true) :
    Lua.IsFreeName (Lua.localName var) := by
  refine ⟨?_, ?_⟩
  · unfold Lua.localName Lua.localIdentifier
    split
    · exact isName_tempName var.id
    · rename_i htemp
      have hname : Lua.isName var.name = true := (Bool.or_eq_true_iff.1 h).resolve_left htemp
      split
      · exact isName_append_underscore hname
      · exact hname
  · have hwords : ∀ word ∈ Lua.reserved, Lua.isReservedLocal word = true ∧
        word.toList.getLast? ≠ some '_' ∧
        (Lua.reservedStart.toList ++ ['t']).isPrefixOf word.toList = false := by decide
    rw [Bool.eq_false_iff]
    intro hmem
    obtain ⟨hres, hlast, htemp⟩ := hwords _ (List.contains_iff_mem.1 hmem)
    exact Lua.localName_ne_reserved hres hlast htemp var rfl

theorem startsWith_minus_toString (n : Nat) : Lua.startsWith '-' (toString n) = false := by
  unfold Lua.startsWith
  rw [Nat.toString_eq_ofList_toDigits, toList_ofList]
  rw [beq_eq_false_iff_ne]
  intro hhead
  have hdigit : ('-').isDigit = true :=
    Nat.isDigit_of_mem_toDigits (by decide) (by decide) (List.mem_of_head? hhead)
  cases hdigit

/-- A negative integer is a negation. -/
theorem spells_integer (value : Int) :
    Spells (toString value) (if value < 0 then Lua.unaryPrecedence else Lua.atomPrecedence)
      (integerTerm value) := by
  cases value with
  | ofNat n => exact Lua.spells_number n
  | negSucc n =>
    rw [if_pos (Int.negSucc_lt_zero n)]
    exact (Lua.spells_number (n + 1)).neg (startsWith_minus_toString (n + 1))

theorem spellsHead_helper {lhs rhs result : Ty} (h : Lua.rendering op lhs rhs result = .helper name)
    : SpellsHead name (helperTerm name) := by
  have hname : name = "math.fmod" ∨ name = "_hx_bit.band" ∨ name = "_hx_bit.bor" ∨
      name = "_hx_bit.bxor" ∨ name = "_hx_bit.lshift" ∨ name = "_hx_bit.arshift" ∨
      name = "_hx_bit.rshift" := by
    unfold Lua.rendering at h
    grind
  rcases hname with rfl | rfl | rfl | rfl | rfl | rfl | rfl <;> exact Lua.spellsHead_member rfl rfl

/-! ## Written expressions -/

/-- It is written without failure or label, as a text that is read as the
term. -/
def WritesTerm (e : Expr) (t : Term) : Prop :=
  ∃ code, (emit e).value = pure code ∧ ∀ layout, Spells (code.text layout) (precedence e) t

section WritesTerm

variable {e lhs rhs : Expr} {t u : Term} {loc : Loc} {type : Ty}

/-- Operands get the parentheses that they need. -/
theorem WritesTerm.operand (h : WritesTerm e t) (parent : Nat) (tighter : Bool) :
    ∃ code level, (emit e).operand parent tighter = pure code ∧
      Lua.Fits parent (!tighter) level ∧ ∀ layout, Spells (code.text layout) level t := by
  obtain ⟨code, hvalue, hspells⟩ := h
  unfold Emission.operand
  rw [hvalue, pure_bind, source_emit]
  dsimp only
  by_cases hparens : precedence e < parent || (tighter && precedence e = parent)
  · rw [if_pos hparens]
    exact ⟨.paren code, parent + 1, rfl, .inl (Nat.lt_succ_self _), fun layout =>
      (hspells layout).paren.spells⟩
  · rw [if_neg hparens]
    refine ⟨code, precedence e, rfl, ?_, hspells⟩
    unfold Lua.Fits
    cases tighter <;> simp at hparens ⊢ <;> omega

theorem value_binary {l r : Emission}
    (h : Lua.rendering op l.source.type r.source.type type ≠ .none) :
    (binary loc type op l r).value = operation op type l r := by
  cases op with
  | assign => exact absurd rfl h
  | compound => exact absurd rfl h
  | nullCoalesce => exact absurd rfl h
  | _ => rfl

theorem WritesTerm.not (h : WritesTerm e t) : WritesTerm (.unary loc type .not isPost e) (.not t) := by
  obtain ⟨code, level, hcode, hfits, hspells⟩ := h.operand Lua.unaryPrecedence false
  refine ⟨.not code, ?_, fun layout => ((hspells layout).mono hfits.le).not⟩
  change (emit e).operand Lua.unaryPrecedence false >>= _ = _
  rw [hcode, pure_bind]

/-- A second minus sign is kept away from the first. -/
theorem spells_neg {layout : Lua.Layout} (h : Spells (code.text layout) Lua.unaryPrecedence t) :
    Spells ((Lua.Expr.neg code).text layout) Lua.unaryPrecedence (.neg t) := by
  have htext : (Lua.Expr.neg code).text layout =
      if Lua.startsWith '-' (code.text layout) then "-(" ++ code.text layout ++ ")"
      else "-" ++ code.text layout := rfl
  rw [htext]
  by_cases hminus : Lua.startsWith '-' (code.text layout) = true
  · rw [if_pos hminus]
    have hstart : Lua.startsWith '-' ("(" ++ code.text layout ++ ")") = false := by
      simp [Lua.startsWith]
    have hopen : "-(" ++ code.text layout ++ ")" = "-" ++ ("(" ++ code.text layout ++ ")") := by
      rw [← append_assoc, ← append_assoc]
      rfl
    rw [hopen]
    exact h.paren.spells.neg hstart
  · rw [if_neg hminus]
    exact h.neg (Bool.eq_false_iff.2 hminus)

theorem WritesTerm.neg (h : WritesTerm e t) : WritesTerm (.unary loc type .neg isPost e) (.neg t) := by
  obtain ⟨code, level, hcode, hfits, hspells⟩ := h.operand Lua.unaryPrecedence false
  refine ⟨.neg code, ?_, fun layout => spells_neg ((hspells layout).mono hfits.le)⟩
  change (emit e).operand Lua.unaryPrecedence false >>= _ = _
  rw [hcode, pure_bind]

theorem WritesTerm.negBits (h : WritesTerm e t) :
    WritesTerm (.unary loc type .negBits isPost e) (.call (helperTerm "_hx_bit.bnot") [t]) := by
  obtain ⟨code, hvalue, hspells⟩ := h
  have hhelper : SpellsHead "_hx_bit.bnot" (helperTerm "_hx_bit.bnot") :=
    Lua.spellsHead_member rfl rfl
  refine ⟨.call (.name "_hx_bit.bnot") [code], ?_, fun layout =>
    (hhelper.call (hspells layout).arg).spells⟩
  change (emit e).value >>= _ = _
  rw [hvalue, pure_bind]

section

variable (hlhs : WritesTerm lhs t) (hrhs : WritesTerm rhs u)
  (htree : operationTree (Lua.rendering op lhs.type rhs.type type) t u = some tree)
include hlhs hrhs htree

/-- A binary operation, also where it updates its left operand. -/
theorem WritesTerm.operation : ∃ code, operation op type (emit lhs) (emit rhs) = pure code ∧
      ∀ layout, Spells (code.text layout) (Lua.rendering op lhs.type rhs.type type).precedence
        tree := by
  unfold Emission.operation
  rw [source_emit, source_emit]
  cases hrendering : Lua.rendering op lhs.type rhs.type type with
  | none =>
    rw [hrendering] at htree
    cases htree
  | operator op =>
    rw [hrendering] at htree
    cases htree
    obtain ⟨l, left, hl, hleft, hlspells⟩ := hlhs.operand op.precedence op.isRightAssoc
    obtain ⟨r, right, hr, hright, hrspells⟩ := hrhs.operand op.precedence (!op.isRightAssoc)
    rw [Bool.not_not] at hright
    refine ⟨.binary op l r, ?_, fun layout =>
      (hlspells layout).binary (hrspells layout) hleft hright⟩
    simp only [hl, hr, pure_bind]
  | helper name =>
    rw [hrendering] at htree
    cases htree
    obtain ⟨l, hl, hlspells⟩ := hlhs
    obtain ⟨r, hr, hrspells⟩ := hrhs
    refine ⟨.call (.name name) [l, r], ?_, fun layout => ?_⟩
    · simp only [hl, hr, pure_bind]
    · exact ((spellsHead_helper hrendering).call
        ((hlspells layout).args (hrspells layout).arg)).spells

theorem WritesTerm.binary : WritesTerm (.binary loc type op lhs rhs) tree := by
  obtain ⟨code, hcode, hspells⟩ := hlhs.operation hrhs htree
  have hvalue : Lua.rendering op (emit lhs).source.type (emit rhs).source.type type ≠ .none := by
    rw [source_emit, source_emit]
    intro hnone
    rw [hnone] at htree
    cases htree
  exact ⟨code, (value_binary hvalue).trans hcode, hspells⟩

end

/-- The operands of an operation have trees. -/
theorem exists_of_operatorTree_binary (h : operatorTree (.binary loc type op lhs rhs) = some tree) :
    ∃ t u, operatorTree lhs = some t ∧ operatorTree rhs = some u ∧
      operationTree (Lua.rendering op lhs.type rhs.type type) t u = some tree := by
  obtain ⟨t, ht, h⟩ := bind_eq_some_iff.1 h
  obtain ⟨u, hu, htree⟩ := bind_eq_some_iff.1 h
  exact ⟨t, u, ht, hu, htree⟩

/-- **Every operator expression is written so that it is read back.** -/
theorem writesTerm_of_operatorTree (h : operatorTree e = some t) : WritesTerm e t := by
  -- Along the tree; that texts are spelled at the precedence of their nodes carries it.
  fun_induction operatorTree e generalizing t with
  | case1 loc type value =>
    cases h
    exact ⟨.int value, rfl, fun _ => spells_integer value⟩
  | case2 loc type value =>
    cases h
    exact ⟨.bool value, rfl, fun _ => Lua.spells_bool value⟩
  | case3 =>
    cases h
    exact ⟨.nil, rfl, fun _ => Lua.spells_nil⟩
  | case4 loc var hname =>
    cases h
    exact ⟨.name (Lua.localName var), rfl, fun _ => (isFreeName_localName hname).spellsHead.spells⟩
  | case5 => cases h
  | case6 loc type inner ih =>
    obtain ⟨code, hcode, hspells⟩ := ih h
    refine ⟨.paren code, ?_, fun layout => (hspells layout).paren.spells⟩
    change (emit inner).value >>= _ = _
    rw [hcode, pure_bind]
  | case7 loc type name inner ih => exact ih h
  | case8 loc type inner ih => exact ih h
  | case9 loc type isPost operand ih =>
    obtain ⟨t, ht, htree⟩ := bind_eq_some_iff.1 h
    cases htree
    exact (ih ht).not
  | case10 loc type isPost operand ih =>
    obtain ⟨t, ht, htree⟩ := bind_eq_some_iff.1 h
    cases htree
    exact (ih ht).neg
  | case11 loc type isPost operand ih =>
    obtain ⟨t, ht, htree⟩ := bind_eq_some_iff.1 h
    cases htree
    exact (ih ht).negBits
  | case12 loc type op lhs rhs ihl ihr =>
    have h : operatorTree (.binary loc type op lhs rhs) = some t := h
    obtain ⟨l, r, hl, hr, htree⟩ := exists_of_operatorTree_binary h
    exact (ihl hl).binary (ihr hr) htree
  | case13 => cases h

/-- A variable without parentheses is written as its name. -/
theorem name_of_isBareLocal (hbare : isBareLocal e = true) (h : operatorTree e = some t) :
    ∃ name, Lua.IsFreeName name ∧ (emit e).value = pure (.name name) ∧ t = .name name := by
  fun_induction isBareLocal e generalizing t with
  | case1 loc var =>
    unfold operatorTree at h
    split at h
    · rename_i hname
      cases h
      exact ⟨Lua.localName var, isFreeName_localName hname, rfl, rfl⟩
    · cases h
  | case2 loc type name inner ih => exact ih hbare h
  | case3 loc type inner ih => exact ih hbare h
  | case4 => cases hbare

end WritesTerm

/-! ## Texts -/

theorem expression_of_value {e : Expr} (h : (emit e).value = pure code) (context : Context) :
    expression e context = .ok (code.text context.layout) context := by
  rw [expression_eq, valueOf, h]
  rfl

/-- An update is written as an assignment. -/
theorem statements_of_update {loc : Loc} {type : Ty} {target operand : Expr} {place : Lua.Expr}
    (hplace : (emit target).value = pure place)
    (hcode : operation op type (emit target) (emit operand) = pure code)
    (context : Context) :
    statements (.binary loc type (.compound op) target operand) context = .ok (context.layout.line
        (place.text context.layout ++ " = " ++ code.text context.layout)) context := by
  have hblock : blockOf (.binary loc type (.compound op) target operand) =
      pure [.assign place code] := by
    change (emit target).value >>= _ = _
    rw [hplace, pure_bind, hcode, pure_bind]
  have hrun : blockOf (.binary loc type (.compound op) target operand) context.scope
      context.nextLabel = .ok [.assign place code] context.nextLabel := by
    rw [hblock]
    rfl
  rw [statements_of_blockOf hrun]
  exact congrArg (EStateM.Result.ok · context) append_empty

/-- **Operators are read back.** The text of an operator expression is read
as the tree of its operators. An update of `target` by an operation is
written with an equals sign between the target and the operation on it,
and is read as that assignment if the target is a variable without
parentheses and lines are indented by blanks. -/
theorem operators_are_read_back (context : Context) : (∀ e t, operatorTree e = some t →
      ∃ text, expression e context = .ok text context ∧ Lua.Reads text t) ∧
    ∀ loc type op target operand t tree, operatorTree target = some t →
      operatorTree (.binary loc type op target operand) = some tree →
      ∃ place value, statements (.binary loc type (.compound op) target operand) context =
          .ok (context.layout.line (place ++ " = " ++ value)) context ∧
        Lua.Reads place t ∧ Lua.Reads value tree ∧
        (isBareLocal target = true → (∀ c ∈ context.layout.indent.toList, Lua.isBlank c = true) →
          Lua.ReadsAssignment (context.layout.line (place ++ " = " ++ value)) t tree) := by
  refine ⟨fun e t h => ?_, fun loc type op target operand t tree htarget htree => ?_⟩
  · obtain ⟨code, hcode, hspells⟩ := writesTerm_of_operatorTree h
    exact ⟨_, expression_of_value hcode context, (hspells context.layout).reads⟩
  · obtain ⟨l, r, hl, hr, hoperation⟩ := exists_of_operatorTree_binary htree
    obtain ⟨code, hcode, hspells⟩ :=
      (writesTerm_of_operatorTree hl).operation (writesTerm_of_operatorTree hr) hoperation
    obtain ⟨place, hplace, hreads⟩ := writesTerm_of_operatorTree htarget
    refine ⟨_, _, statements_of_update hplace hcode context, (hreads context.layout).reads,
      (hspells context.layout).reads, fun hbare hindent => ?_⟩
    obtain ⟨name, hname, hvalue, rfl⟩ := name_of_isBareLocal hbare htarget
    have hpure : (pure place : EmitM _) {} 0 = (pure (.name name) : EmitM _) {} 0 := by
      rw [← hplace, hvalue]
    obtain rfl : place = .name name := (EStateM.Result.ok.inj hpure).1
    exact (hspells context.layout).readsAssignment hname hindent

/-- `x`, an integer. -/
def countVar : Expr := .local {} ⟨1, "x", .int⟩

/-- `(x + y) + -(-1)` on strings: chains of `..` group from the right, and
two minus signs would begin a comment. -/
def groupedChain : Expr :=
  let y : Expr := .local {} ⟨2, "y", .string⟩
  .binary {} .string .add (.binary {} .string .add countVar y)
    (.unary {} .int .neg false (.intLit {} (-1)))

def nested : Context := { layout := { depth := 2 } }

theorem operators_are_read_back_nested :
    operatorTree groupedChain = some (.binary .concat (.binary .concat (.name "x") (.name "y"))
      (.neg (.neg (.number 1)))) ∧
    (∃ text, expression groupedChain nested = .ok text nested ∧
      Lua.Reads text (.binary .concat (.binary .concat (.name "x") (.name "y"))
        (.neg (.neg (.number 1))))) ∧
    ∃ place value, statements (.binary {} .int (.compound .sub) countVar
          (.binary {} .int .sub countVar (.intLit {} 1))) nested =
        .ok (nested.layout.line (place ++ " = " ++ value)) nested ∧
      Lua.ReadsAssignment (nested.layout.line (place ++ " = " ++ value)) (.name "x")
        (.binary .sub (.name "x") (.binary .sub (.name "x") (.number 1))) := by
  have hindent : nested.layout.indent.toList.all Lua.isBlank = true := rfl
  refine ⟨rfl, (operators_are_read_back nested).1 groupedChain _ rfl, ?_⟩
  obtain ⟨place, value, hstatements, -, -, hassignment⟩ :=
    (operators_are_read_back nested).2 {} .int .sub countVar
      (.binary {} .int .sub countVar (.intLit {} 1)) _ _ rfl rfl
  exact ⟨place, value, hstatements, hassignment rfl (List.all_eq_true.1 hindent)⟩

/-- In parentheses a variable is no target: Lua does not read the update
of one. -/
theorem parenthesized_target_is_not_read :
    statements (.binary {} .int (.compound .add) (.paren {} .int countVar) (.intLit {} 1)) {} =
      .ok "(x) = (x) + 1\n" {} ∧
    ∀ target value, ¬ Lua.ReadsAssignment "(x) = (x) + 1\n" target value := by
  refine ⟨?_, ?_⟩
  · have hplace : (emit (.paren {} .int countVar)).value = pure (.paren (.name "x")) := rfl
    have hcode : operation .add .int (emit (.paren {} .int countVar))
        (emit (.intLit {} 1)) = pure (.binary .add (.paren (.name "x")) (.int 1)) := rfl
    have hline : Lua.Layout.line {} (Lua.Expr.text {} (.paren (.name "x")) ++ " = " ++
        Lua.Expr.text {} (.binary .add (.paren (.name "x")) (.int 1))) = "(x) = (x) + 1\n" := by
      decide
    rw [statements_of_update hplace hcode, hline]
  · rintro target value ⟨k, hk⟩
    have hsome : Lua.assignment? k "(x) = (x) + 1\n" = some (target, value) := hk k (Nat.le_refl k)
    have hscan : Lua.scan .start "(x) = (x) + 1\n".toList =
        some [.opening, .name "x", .closing, .assign, .opening, .name "x", .closing, .op .add,
          .number 1] := by decide
    unfold Lua.assignment? at hsome
    rw [hscan] at hsome
    -- From depth four on the variable is read, with nothing accessed on it.
    match k with
    | 0 | 1 | 2 | 3 => cases hsome
    | _ + 4 => cases hsome

end LuaBackend.Emit
