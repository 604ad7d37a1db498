import LuaBackend.Proofs.Emit.Written.Statements

/-!
# Writing trees in normal form

A tree in normal form is written, unless it holds one of the misuses that
normal form says nothing about (`Construct.isMisuse`). Labels are counted
in 32 bits, so there have to be enough of them (`demand`).
-/

namespace LuaBackend

namespace Lua

mutual

def Expr.BlockFree : Expr → Prop
  | .nil | .bool _ | .int _ | .float _ | .string _ | .name _ => True
  | .paren inner | .not inner | .neg inner => inner.BlockFree
  | .member object _ | .key object _ => object.BlockFree
  | .index object position => object.BlockFree ∧ position.BlockFree
  | .call callee args | .callWithSelf callee args => callee.BlockFree ∧ Expr.AllBlockFree args
  | .method object _ args => object.BlockFree ∧ Expr.AllBlockFree args
  | .binary _ lhs rhs => lhs.BlockFree ∧ rhs.BlockFree
  | .function _ body => Stmt.AllBlockFree body
  | .block _ => False
  | .object fields => Expr.FieldsBlockFree fields
  | .array elements => Expr.AllBlockFree elements
  | .verbatim pieces => Expr.PiecesBlockFree pieces

def Expr.AllBlockFree : List Expr → Prop
  | [] => True
  | e :: rest => e.BlockFree ∧ Expr.AllBlockFree rest

def Expr.OptionBlockFree : Option Expr → Prop
  | none => True
  | some e => e.BlockFree

def Expr.FieldsBlockFree : List (FieldInit Expr) → Prop
  | [] => True
  | ⟨_, value⟩ :: rest => value.BlockFree ∧ Expr.FieldsBlockFree rest

def Expr.PiecesBlockFree : List (Piece Expr) → Prop
  | [] => True
  | .text _ :: rest => Expr.PiecesBlockFree rest
  | .code e :: rest => e.BlockFree ∧ Expr.PiecesBlockFree rest

def Stmt.BlockFree : Stmt → Prop
  | .brk | .goto _ | .label _ => True
  | .localVar _ value | .ret value | .retInside value => Expr.OptionBlockFree value
  | .assign place value => place.BlockFree ∧ value.BlockFree
  | .call value | .run value | .test value | .default _ value => value.BlockFree
  | .scope body | .protect body | .define _ _ body => Stmt.AllBlockFree body
  | .loopWhile cond body | .loopUntilNot body cond => cond.BlockFree ∧ Stmt.AllBlockFree body
  | .branches arms otherwise => Stmt.ArmsBlockFree arms ∧ Stmt.OtherwiseBlockFree otherwise

def Stmt.AllBlockFree : List Stmt → Prop
  | [] => True
  | s :: rest => s.BlockFree ∧ Stmt.AllBlockFree rest

def Stmt.ArmsBlockFree : List (Arm Expr Stmt) → Prop
  | [] => True
  | ⟨cond, body⟩ :: rest => (cond.BlockFree ∧ Stmt.AllBlockFree body) ∧ Stmt.ArmsBlockFree rest

def Stmt.OtherwiseBlockFree : Option (List Stmt) → Prop
  | none => True
  | some body => Stmt.AllBlockFree body

end

/-- It is enough to know the functions of the code. -/
theorem Stmt.allBlockFree_of_functions {F : Bool → List Stmt → Prop}
    (hF : ∀ called body, F called body → called = false) (code : List Stmt) :
    Stmt.AllFunctions F code → Stmt.AllBlockFree code := by
  -- The induction is along the recursion of `BlockFree`, one motive for each of its functions.
  apply Stmt.AllBlockFree.induct (fun e => e.Functions F → e.BlockFree)
    (fun pieces => Expr.PiecesFunctions F pieces → Expr.PiecesBlockFree pieces)
    (fun fields => Expr.FieldsFunctions F fields → Expr.FieldsBlockFree fields)
    (fun code => Stmt.AllFunctions F code → Stmt.AllBlockFree code)
    (fun s => s.Functions F → s.BlockFree)
    (fun otherwise => Stmt.OtherwiseFunctions F otherwise → Stmt.OtherwiseBlockFree otherwise)
    (fun arms => Stmt.ArmsFunctions F arms → Stmt.ArmsBlockFree arms)
    (fun part => Expr.OptionFunctions F part → Expr.OptionBlockFree part)
    (fun es => Expr.AllFunctions F es → Expr.AllBlockFree es)
  case case18 => exact fun body h => Bool.noConfusion (hF _ _ h.1)
  all_goals grind [Expr.Functions, Expr.AllFunctions, Expr.OptionFunctions, Expr.FieldsFunctions,
    Expr.PiecesFunctions, Stmt.Functions, Stmt.AllFunctions, Stmt.ArmsFunctions,
    Stmt.OtherwiseFunctions, Expr.BlockFree, Expr.AllBlockFree, Expr.OptionBlockFree,
    Expr.FieldsBlockFree, Expr.PiecesBlockFree, Stmt.BlockFree, Stmt.AllBlockFree,
    Stmt.ArmsBlockFree, Stmt.OtherwiseBlockFree]

end Lua

namespace Emit

/-! ## Normal form as a regime -/

/-- The operator of a compound assignment has a value, and the placeholders
in given code can be counted. -/
def regular : Expr → Bool
  | .binary _ _ (.compound op) _ _ => !op.isMutating
  | .call _ _ callee args => (codeText? callee args).all fun text => placeholdersFit text.toList
  | _ => true

/-- Such trees are refused for a misuse only, and no block in their code is
called on the spot. -/
def normalForm : Regime where
  value e := e.violation .value = none ∧ e.Throughout fun n => regular n = true
  stmt e := e.violation .statement = none ∧ e.Throughout fun n => regular n = true
  fault f := ∃ construct loc, f = .unsupported construct loc ∧ construct.isMisuse = true
  function called _ := called = false
  counted := True
  spelled := False
  name _ := True
  place _ := True
  stmt_of_value h := ⟨Expr.violation_statement_of_value _ h.1, h.2⟩
  value_part h hc := ⟨(Expr.violation_eq_none_iff.1 h.1).2.1 _ hc,
    h.2.child (Expr.mem_children_iff.2 (.inl hc))⟩
  stmt_part h hc := ⟨(Expr.violation_eq_none_iff.1 h.1).2.2.1 _ hc,
    h.2.child (Expr.mem_children_iff.2 (.inr (.inl hc)))⟩
  value_wrapped h hc := ⟨(Expr.violation_eq_none_iff.1 h.1).2.2.2 _ hc,
    h.2.child (Expr.mem_children_iff.2 (.inr (.inr hc)))⟩
  stmt_wrapped h hc := ⟨(Expr.violation_eq_none_iff.1 h.1).2.2.2 _ hc,
    h.2.child (Expr.mem_children_iff.2 (.inr (.inr hc)))⟩
  value_called h := absurd (Expr.violation_eq_none_iff.1 h.1).1 Bool.false_ne_true
  misuse h := ⟨_, _, rfl, h⟩
  statement h hs := by
    have hstand := (Expr.violation_eq_none_iff.1 h.1).1
    rw [Expr.mayStand, hs] at hstand
    cases hstand
  coalesce h := absurd h.1 (Option.some_ne_none _)
  operator h hop := by
    have hregular := h.2.node
    rw [regular, hop] at hregular
    cases hregular
  overflow h ht hfit := by
    have hregular := h.2.node
    rw [regular, Option.mem_def.1 ht, Option.all_some, hfit] at hregular
    cases hregular
  unlabelled h := absurd trivial h
  apart _ _ _ := rfl
  called h := absurd (Expr.violation_eq_none_iff.1 h.1).1 Bool.false_ne_true
  brought _ _ _ := trivial
  word := False.elim
  stored := False.elim

/-- **Trees in normal form are written.** Take a tree in normal form whose
compound assignments have an operator with a value, and the numbers of
whose placeholders fit into 64 bits, outside of all loops. If there are
labels enough, the tree is written as code in which no block is called on
the spot, or it is refused because of an identifier that names nothing, an
intrinsic, `super`, an access or a jump that is misused, and never for
another reason. -/
theorem normal_form_is_written (e : Expr) (context : Context) (hnormal : e.InNormalForm)
    (hregular : e.Throughout fun n => regular n = true)
    (hcontrol : context.scope.control = []) (hfirst : context.nextLabel ≠ 0)
    (hlabels : context.nextLabel.toNat + demand e < UInt32.size) :
    (∃ code label, statements e context =
        .ok (Lua.Stmt.texts context.layout code) { context with nextLabel := label } ∧
      blockOf e context.scope context.nextLabel = .ok code label ∧
      Lua.Stmt.AllBlockFree code) ∨
    ∃ construct loc label, statements e context =
        .error (.unsupported construct loc) { context with nextLabel := label } ∧
      construct.isMisuse = true := by
  have hpos : 0 < context.nextLabel.toNat := by
    refine Nat.pos_of_ne_zero fun hzero => hfirst ?_
    exact UInt32.toNat_inj.1 hzero
  obtain ⟨j, hj, hrun⟩ := draws_blockOf normalForm ⟨hnormal, hregular⟩ hcontrol context.nextLabel
  cases hblock : blockOf e context.scope context.nextLabel with
  | ok code label =>
    rw [hblock] at hrun
    obtain ⟨-, hlands⟩ := hrun
    have hcode := hlands trivial ⟨fun _ => ⟨hpos, by omega⟩, False.elim⟩ _ _
      fun _ => ⟨Nat.le_refl _, Nat.le_refl _⟩
    exact .inl ⟨code, label, statements_of_blockOf hblock, rfl,
      Lua.Stmt.allBlockFree_of_functions (fun _ _ => id) code hcode.functions⟩
  | error fault label =>
    rw [hblock] at hrun
    obtain ⟨construct, loc, rfl, hmisuse⟩ := hrun.2 trivial ⟨fun _ => ⟨hpos, by omega⟩, False.elim⟩
    exact .inr ⟨construct, loc, label, statements_of_refusal hblock, hmisuse⟩

/-- `while (x < 9) { x += 1; __lua__("print({0})", x); try continue; catch
(error) {} }`. -/
def countingLoop : Expr :=
  let x : Expr := .local {} ⟨1, "x", .int⟩
  let code : Expr := .call {} .void (.ident {} .dynamic "__lua__")
    [.const {} .string (.string "print(\x7b0\x7d)"), x]
  .loop {} .before (.mkBinary {} .lt x (.intLit {} 9)) <| some <| .statements {}
    [.mkBinary {} (.compound .add) x (.intLit {} 1), code,
      .tryCatch {} .void (some (.cont {})) [⟨⟨2, "error", .dynamic⟩, none⟩]]

theorem normal_form_is_written_countingLoop :
    countingLoop.InNormalForm ∧ (countingLoop.Throughout fun n => regular n = true) ∧
      1 + demand countingLoop < UInt32.size ∧
      ((∃ code label, statements countingLoop {} =
          .ok (Lua.Stmt.texts {} code) { nextLabel := label } ∧
        blockOf countingLoop {} 1 = .ok code label ∧ Lua.Stmt.AllBlockFree code) ∨
      ∃ construct loc label, statements countingLoop {} =
          .error (.unsupported construct loc) { nextLabel := label } ∧
        construct.isMisuse = true) := by
  have hnormal : countingLoop.InNormalForm := rfl
  have hregular : countingLoop.Throughout fun n => regular n = true := by decide
  have hlabels : 1 + demand countingLoop < UInt32.size := by decide
  exact ⟨hnormal, hregular, hlabels,
    normal_form_is_written countingLoop {} hnormal hregular rfl (by decide) hlabels⟩

end Emit

end LuaBackend
