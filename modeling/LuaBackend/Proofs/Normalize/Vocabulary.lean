import LuaBackend.Proofs.Normalize.Discipline.Statements

/-!
# Normalization adds no words

The words of a normalized tree are those of the tree it comes from, and
temporaries. So what all words of a tree are like, and temporaries as
well, the words of the normalized tree are like too.
-/

namespace LuaBackend.Normalize

open Expr

variable {W : Word → Prop} (hW : ∀ t : Var, t.isTemp = true → W (.var t))

/-- The discipline of trees with words as `W` asks. -/
def vocabulary : Discipline where
  supply := Reserved
  word := W
  source := Worded W
  types := .any _
  assignable _ := True
  value := Worded W
  place := Worded W
  stmt := Worded W
  supply_next hs hlt := ⟨Nat.le_succ_of_le hs, hW _ (isTemp_nextTemp hs hlt)⟩
  source_part h hc := h.child hc
  source_word h hw := h.node _ hw
  source_default h hp hd :=
    Worded.retyped (h.child (List.mem_append_left _ (List.mem_filterMap.2 ⟨_, hp, hd⟩)))
  assignable_binary _ _ := trivial
  assignable_unary _ _ := trivial
  assignable_local := trivial
  assignable_wrapped _ _ := trivial
  value_of_place := id
  stmt_of_value := id
  place_of_value _ _ := id
  place_node _ hw hc := worded_iff.2 ⟨hw, hc⟩
  value_node _ _ hw hv hs hwrapped := worded_iff.2 ⟨hw, fun c hc => by
    rcases mem_children_iff.1 hc with hc | hc | hc
    · exact hv c hc
    · exact hs c hc
    · exact hwrapped c hc⟩
  stmt_node hstmt _ hw hv hs := worded_iff.2 ⟨hw, fun c hc => by
    rw [mem_children_iff, wrapped_of_isStatementOnly hstmt] at hc
    rcases hc with hc | hc | hc
    · exact hv c hc
    · exact hs c hc
    · cases hc⟩
  stmt_assign _ _ hp hv := worded_iff.2
    ⟨nofun, List.forall_mem_cons.2 ⟨hp, List.forall_mem_singleton.2 hv⟩⟩

include hW in
/-- **Normalization adds no words but temporaries.** -/
theorem worded_normalize {e t : Expr} {s s' : TempSupply} (he : e.Worded W) (hs : Reserved s)
    (hrun : normalize e none s = .ok t s') : t.Worded W := by
  have hresult : Makes (vocabulary hW) (normalize e none) (Worded W) :=
    ((disciplined_lower (R := (vocabulary hW).regimen) he).body none nofun).bind fun _ hstmts =>
      makes_pure ((vocabulary hW).regimen.scope_block hstmts)
  exact ((hresult s hs).of_ok hrun).2

end LuaBackend.Normalize
