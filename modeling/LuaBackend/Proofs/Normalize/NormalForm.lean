import LuaBackend.Proofs.Normalize.Discipline.Statements

/-!
# Normalization ends in normal form

Values are plain, hoisted statements are in normal form, and a place stays
a place while its parts are moved. This holds of every tree that stores
into places only and whose default values are plain (`Storable`), so the
check that follows normalization has nothing to find.
-/

namespace LuaBackend

namespace Normalize

open Expr Option

/-- A place in normal form, also where its value is wanted. -/
structure NormalPlace (e : Expr) : Prop where
  value : e.violation .value = none
  target : ∀ loc, e.violation (.target loc) = none

theorem normalPlace_none : ∀ p ∈ (none : Option Expr), NormalPlace p := forall_mem_none

/-- A local, member or element whose parts are plain values. -/
theorem normalPlace_of_children {e : Expr} (he : e.isPlace = true)
    (h : ∀ c ∈ e.children, c.violation .value = none) : NormalPlace e := by
  cases e with
  | «local» => exact ⟨rfl, fun _ => rfl⟩
  | field loc type ref receiver =>
    have hr : violationOption .value receiver = none := by
      cases receiver with
      | none => rfl
      | some r => exact h r (.head _)
    exact ⟨hr, fun _ => hr⟩
  | index loc type base position =>
    have hparts := or_eq_none_iff.2 ⟨h base (.head _), h position (.tail _ (.head _))⟩
    exact ⟨hparts, fun _ => hparts⟩
  | _ => exact nomatch he

def normalForm : Discipline where
  supply _ := True
  word _ := True
  source := Storable
  types := .any _
  assignable e := e.bare.isPlace = true
  value e := e.violation .value = none
  place := NormalPlace
  stmt e := e.violation .statement = none
  supply_next _ _ := ⟨trivial, trivial⟩
  source_part := Storable.child
  source_word _ _ := trivial
  source_default {_ _ _ params _ p d} h hp hd := by
    have hplain := List.any_eq_false.1 ((storable_iff _).1 h).1 p hp
    rw [mem_def] at hd
    rw [hd, any_some, Bool.not_eq_true, isSome_eq_false_iff, isNone_iff_eq_none] at hplain
    exact (milder_retyped d).violation .value hplain
  assignable_binary h := isPlace_of_stores ((storable_iff _).1 h).1
  assignable_unary h := isPlace_of_stores ((storable_iff _).1 h).1
  assignable_local := rfl
  assignable_wrapped {e _} h hc := by
    cases e with
    | paren | annot =>
      cases List.mem_singleton.1 hc
      exact h
    | _ => cases hc
  value_of_place := NormalPlace.value
  stmt_of_value := violation_statement_of_value _
  place_of_value h hplace _ := absurd (hplace.symm.trans h) Bool.false_ne_true
  place_node h _ hc := normalPlace_of_children h hc
  value_node h _ _ hv hs hw := violation_eq_none_iff.2 ⟨by rw [mayStand, h]; rfl, hv, hs, hw⟩
  stmt_node hstmt hplain _ hv hs := violation_eq_none_iff.2 ⟨mayStand_statement hplain, hv, hs, by
      rw [wrapped_of_isStatementOnly hstmt]
      exact List.forall_mem_nil _⟩
  stmt_assign hop _ hp hv := by
    rw [violation, if_pos hop]
    exact or_eq_none_iff.2 ⟨hp.target _, hv⟩

section Lower

variable {e : Expr} {assignee : Option Expr}

section

variable (he : Storable e) (ha : ∀ p ∈ assignee, NormalPlace p) (s : TempSupply)
include he ha s

theorem gives_body_normal :
    Gives ((lower e).body assignee) s fun stmts _ => violationList .statement stmts = none :=
  ((disciplined_lower (R := normalForm.regimen) he).body assignee ha s trivial).mono
    fun _ _ h => violationList_eq_none.2 h.2

/-- The statements of a tree are in normal form. -/
theorem gives_normalize : Gives (normalize e assignee) s fun r _ => r.InNormalForm :=
  (gives_body_normal he ha s).bind fun _ _ hs => gives_pure (violation_statements hs)

end

/-- The value is plain, and the statements before it in normal form. -/
theorem gives_normalizeValue (he : Storable e) (s : TempSupply) :
    Gives (normalizeValue e) s fun h _ =>
      (∀ stmt ∈ h.stmts, stmt.InNormalForm) ∧ h.value.violation .value = none :=
  ((disciplined_lower (R := normalForm.regimen) he).value s trivial).mono
    fun _ _ h => ⟨h.2.stmts, h.2.value⟩

/-- A function literal stays one, with a body in normal form. -/
theorem gives_normalizeFunction {loc : Loc} {type result : Ty} {params : List (Param Expr)}
    {body : Option Expr} (he : Storable (.function loc type params result body))
    (s : TempSupply) :
    Gives (normalizeFunction (.function loc type params result body)) s fun r _ =>
      ∃ params' body', r = .function loc type params' result body' ∧
        ∀ b ∈ body', b.InNormalForm := by
  cases body with
  | none => exact gives_pure ⟨_, none, rfl, fun _ h => nomatch h⟩
  | some b =>
    have hb : Storable b := he.child (List.mem_append_right _ (.head _))
    have hvalue : Gives (lower (.function loc type params result (some b))).value s fun h _ =>
        ∃ params' body', h.value = .function loc type params' result body' ∧
          ∀ b ∈ body', b.InNormalForm :=
      (gives_body_normal hb normalPlace_none s).bind fun _ _ hs =>
        gives_pure ⟨_, _, rfl, fun _ h => some.inj h ▸ violation_statements hs⟩
    exact hvalue.bind fun _ _ h => gives_pure h

end Lower

end Normalize

end LuaBackend
