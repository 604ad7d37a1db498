import LuaBackend.Proofs.Emit.NormalForm
import LuaBackend.Proofs.Lua.Programs

/-!
# The block structure of generated code

A tree in normal form is written as a program: Lua's grammar derives its
text, so what opens a block is closed by the word that belongs to it, and
a return ends its block. A type without packages is written by its name as
it is, so it must not be called by a reserved word.
-/

namespace LuaBackend

/-! ## What trees in normal form store into -/

namespace Expr

def Accepted (e : Expr) : Prop := ∃ position, e.violation position = none

/-- Where a node breaks no rule, no node below it does. -/
theorem Accepted.children {e : Expr} (h : e.Accepted) (c) (hc : c ∈ e.children) : c.Accepted := by
  obtain ⟨position, h⟩ := h
  obtain ⟨-, hvalues, hstmts, hwrapped⟩ := violation_eq_none_iff.1 h
  rcases mem_children_iff.1 hc with hc | hc | hc
  · exact ⟨_, hvalues c hc⟩
  · exact ⟨_, hstmts c hc⟩
  · exact ⟨_, hwrapped c hc⟩

theorem Accepted.throughout {e : Expr} (h : e.Accepted) : e.Throughout Accepted := by
  induction e using induction_on_children with
  | step e ih => exact throughout_iff.2 ⟨h, fun c hc => ih c hc (h.children c hc)⟩

theorem Accepted.stored {e target : Expr} (h : e.Accepted) (ht : target ∈ e.stored?) :
    target.bare.isPlace = true := by
  obtain ⟨position, h⟩ := h
  have hstand := (violation_eq_none_iff.1 h).1
  cases e with
  | binary loc type op lhs =>
    by_cases hop : op.isAssignment = true
    · obtain rfl : lhs = target := Option.some.inj ((if_pos hop).symm.trans ht)
      cases op with
      | assign | compound =>
        cases position with
        | statement => exact hstand
        | value | target => cases hstand
      | _ => cases hop
    · cases (if_neg hop).symm.trans ht
  | unary loc type op isPost operand =>
    by_cases hop : op.isStep = true
    · obtain rfl : operand = target := Option.some.inj ((if_pos hop).symm.trans ht)
      cases op with
      | increment | decrement =>
        cases position with
        | statement => exact hstand
        | value | target => cases hstand
      | _ => cases hop
    · cases (if_neg hop).symm.trans ht
  | _ => cases ht

theorem mem_children_of_stored {e target : Expr} (ht : target ∈ e.stored?) :
    target ∈ e.children := by
  cases e with
  | binary loc type op lhs =>
    by_cases hop : op.isAssignment = true
    · obtain rfl : lhs = target := Option.some.inj ((if_pos hop).symm.trans ht)
      exact .head _
    · cases (if_neg hop).symm.trans ht
  | unary loc type op isPost operand =>
    by_cases hop : op.isStep = true
    · obtain rfl : operand = target := Option.some.inj ((if_pos hop).symm.trans ht)
      exact .head _
    · cases (if_neg hop).symm.trans ht
  | _ => cases ht

end Expr

namespace Emit

/-- A place can be accessed as it is written. -/
theorem isHead_of_isPlace : ∀ {e : Expr}, e.bare.isPlace = true → isHead e = true
  | .local .., _ | .field .., _ | .index .., _ | .paren .., _ => rfl
  | .annot _ _ _ inner, h => isHead_of_isPlace (e := inner) h

section

variable {e : Expr} {scope : Scope}

/-- A tree in normal form stores only into what can be accessed. -/
theorem spells_of_inNormalForm (hform : e.InNormalForm)
    (hwords : e.Worded (SpelledBy Lua.IsFreeName)) : Spells Lua.IsFreeName Lua.Storable e := by
  have haccepted : e.Accepted := ⟨.statement, hform⟩
  refine ⟨hwords, (haccepted.throughout.and hwords.throughout).mono ?_⟩
  rintro n ⟨hn, hwords⟩ target ht scope hb
  have htarget := hwords.child (Expr.mem_children_of_stored ht)
  -- That the code can be accessed does not depend on what is stored into inside it.
  have hspells : Spells Lua.IsFreeName (fun _ => True) target :=
    ⟨htarget, htarget.mono fun _ _ _ _ _ _ => ensures_true⟩
  exact hspells.isHead isFreeName_of_mem_broughtNames (isHead_of_isPlace (hn.stored ht)) hb

/-- **A tree in normal form is written as a program.** Let its names be
identifiers, without the intrinsics that take text over as code, and let no
type in it be written as a reserved word. Wherever writing it succeeds, a
return is the last statement of its block at any depth, and Lua's grammar
derives the text: what opens a block is closed by the word that belongs to
it, and nothing is left open. -/
theorem statements_isProgram {context context' : Context} {text : String}
    (hform : e.InNormalForm) (hplain : e.Worded fun w => w.isPlain = true)
    (hfree : e.Worded fun w => w.isReserved = false)
    (hb : Based Lua.IsFreeName context.scope) (hlayout : context.layout.Blank)
    (hrun : statements e context = .ok text context') :
    Lua.IsProgram text ∧ ∃ code label, blockOf e context.scope context.nextLabel = .ok code label ∧
      text = Lua.Stmt.texts context.layout code ∧
      Lua.Stmt.AllFormed Lua.IsFreeName Lua.Storable code := by
  obtain ⟨code, label, hcode, rfl⟩ := blockOf_of_statements hrun
  have hwords : e.Worded (SpelledBy Lua.IsFreeName) := by
    refine (hplain.and hfree).mono ?_
    rintro n ⟨hplain, hfree⟩ w hw
    exact spelledBy_isFreeName (hplain w hw) (hfree w hw)
  have hformed : Lua.Stmt.AllFormed Lua.IsFreeName Lua.Storable code :=
    (spells_of_inNormalForm hform hwords).formed isFreeName_of_mem_broughtNames hb _ _ _ hcode
  exact ⟨Lua.isProgram_texts hlayout hformed, code, label, hcode, rfl, hformed⟩

end

/-- `var g = function(n) { while (n < 9) { try { if (n == 3) return n;
continue; } catch (error) throw error; } }`. -/
def searchingFunction : Expr :=
  let n : Var := ⟨1, "n", .int⟩
  let error : Var := ⟨2, "error", .dynamic⟩
  let attempt : Expr := .tryCatch {} .void
    (some (.statements {} [.ite {} .void (.mkBinary {} .eq (.local {} n) (.intLit {} 3))
      (some (.ret {} (some (.local {} n)))) none, .cont {}]))
    [⟨error, some (.throw {} (.local {} error))⟩]
  .varDecl {} ⟨3, "g", .dynamic⟩ <| some <| .function {} .dynamic [⟨n, false, none⟩] .int <| some <|
    .loop {} .before (.mkBinary {} .lt (.local {} n) (.intLit {} 9)) (some attempt)

theorem statements_isProgram_searchingFunction :
    searchingFunction.InNormalForm ∧ (searchingFunction.Worded fun w => w.isPlain = true) ∧
      (searchingFunction.Worded fun w => w.isReserved = false) ∧
      ∃ text context, statements searchingFunction {} = .ok text context ∧ Lua.IsProgram text := by
  have hform : searchingFunction.InNormalForm := rfl
  have hplain : searchingFunction.Worded fun w => w.isPlain = true := by decide
  have hfree : searchingFunction.Worded fun w => w.isReserved = false := by decide
  have hbase : Based Lua.IsFreeName {} := fun h => absurd h (by decide)
  have hlayout : Lua.Layout.Blank {} := by decide
  obtain ⟨code, label, hcode⟩ :
      ∃ code label, blockOf searchingFunction {} 1 = .ok code label := ⟨_, _, rfl⟩
  have hrun := @statements_of_blockOf searchingFunction {} code label hcode
  exact ⟨hform, hplain, hfree, _, _, hrun,
    (statements_isProgram hform hplain hfree hbase hlayout hrun).1⟩

/-- A type called `end`, outside of all packages. -/
def endType : Expr := .typeRef {} .dynamic ⟨[], "end"⟩

/-- **A type that is called by a reserved word is written as that word**, so
the block that it stands in seems to end. -/
theorem reserved_type_is_no_program :
    endType.InNormalForm ∧ (endType.Worded fun w => w.isPlain = true) ∧
      statements endType {} = .ok "local _ = end\n" {} ∧ ¬ Lua.IsProgram "local _ = end\n" := by
  refine ⟨rfl, by decide, rfl, ?_⟩
  rintro ⟨lexemes, hlex, hblock⟩
  have hwords : Lua.lex .blank "local _ = end\n".toList =
    some [.word "local", .word "_", .sign "=", .word "end"] := by decide
  obtain rfl := Option.some.inj (hwords.symm.trans hlex)
  exact absurd hblock.balanced (by decide)

end Emit

end LuaBackend
