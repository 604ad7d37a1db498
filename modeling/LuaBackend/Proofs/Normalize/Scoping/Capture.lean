import LuaBackend.Proofs.Lua.LocalNames
import LuaBackend.Proofs.Normalize.Scoping.Loops

/-!
# Capture

Lua finds a local by its name, and variables may share theirs.
Normalization moves code under other declarations in three places: a
declaration that stands for a value is hoisted, a block on the right of an
assignment stores into the left side from its ends, and a block that is an
initial value does so after the local is declared. Where no names meet in
these, nothing is captured.
-/

namespace LuaBackend

open Expr Lua

namespace Normalize.Scoping

variable {d v : Var}

def resolve (env : List Var) (v : Var) : Option Var :=
  env.find? fun d => localName d = localName v

/-- A declaration of another name changes nothing. -/
theorem resolve_insert {l env : List Var} (h : localName d ≠ localName v) :
    resolve (l ++ d :: env) v = resolve (l ++ env) v := by
  unfold resolve
  rw [List.find?_append, List.find?_append, List.find?_cons_of_neg (by simpa using h)]

theorem resolve_cons (h : localName d = localName v) (env : List Var) :
    resolve (d :: env) v = some d := List.find?_cons_of_pos (decide_eq_true h)

/-- A variable that is read is found by its name, or there is no such
name and it is a variable of the program with `free`. -/
def spelling (free : Var → Prop) : ScopeRule where
  reads env v := match resolve env v with
    | some d => d.id = v.id
    | none => v.isTemp = false ∧ free v
  declares _ _ := True
  binds _ _ := True
  apart d v := localName d ≠ localName v
  reads_insert hd h := by rwa [resolve_insert hd]
  declares_insert _ _ := trivial
  binds_insert _ _ := trivial
  apart_temp := localName_ne
  reads_local _ := by rw [resolve_cons rfl]
  reads_temp _ := by rw [resolve_cons rfl]
  declares_temp _ := trivial

/-- Every local of the second tree is found by its name, or it has no
declaration in the first tree and its name has none in the second. -/
def Resolved (e t : Expr) : Prop :=
  Scoped (spelling fun v => Binds (fun d => d.id ≠ v.id) e) (fun _ => True) [] t

/-- A block to the right of an assignment declares no name that the left
side has, and a block that is an initial value does not have the name of
the local. -/
def KeepsNames : Expr → Prop
  | .binary _ _ .assign lhs rhs => rhs.bare.isBlockLike = true →
    Names (fun v => Binds (fun d => localName d ≠ localName v) rhs) lhs
  | .varDecl _ x (some init) => init.bare.isBlockLike = true →
    Names (fun v => localName x ≠ localName v) init
  | _ => True

instance decidableKeepsNames (e : Expr) : Decidable (KeepsNames e) := by
  unfold KeepsNames
  split <;> infer_instance

/-- Lowering the node brings no two variables of one name together; in
particular, no declaration stands for a value. -/
def Separate (e : Expr) : Prop := (∀ c ∈ e.operands, c.declares = []) ∧ KeepsNames e

instance decidableSeparate (e : Expr) : Decidable (Separate e) :=
  inferInstanceAs (Decidable (_ ∧ _))

/-- Names that do not meet leave a tree tidy. -/
theorem Separate.tidy {free : Var → Prop} {e : Expr} (h : Separate e) : (spelling free).Tidy e := by
  refine ⟨fun c hc d hd => ?_, ?_⟩
  · rw [h.1 c hc] at hd
    exact nomatch hd
  · split
    · exact h.2
    · have hinit := h.2
      exact fun hb => (hinit hb).mono fun _ hv => ⟨hv, hv.symm⟩
    · trivial

/-- **Normalization captures nothing where no names meet.** Take a tree
in which every local is found by its name or is not declared at all. If
lowering it brings no two variables of one name together, then the same
holds of what it is normalized to, from every supply. -/
theorem normalize_captures_nothing (e : Expr) (he : e.TempFree) (hr : Resolved e e)
    (hsep : Throughout Separate e) (s : TempSupply) (hs : Reserved s) :
    Gives (normalize e none) s fun t _ => Resolved e t := by
  have hnames : Throughout (fun n => ∀ v ∈ n.vars, v.isTemp = false) e := tempFree_iff_names.1 he
  have hfits : Fits (spelling fun v => Binds (fun d => d.id ≠ v.id) e) (fun _ => True)
      (fun _ => True) s.next [] (lower e).source := by
    rw [source_lower]
    refine Scoped.mono (hr.and (hnames.and hsep)) fun n hn => ?_
    obtain ⟨-, hvars, hn⟩ := hn
    refine ⟨fun v hv => ⟨fun ht => ?_, fun _ => trivial⟩, fun d hd => ?_, hn.tidy⟩
    · rw [hvars v hv] at ht
      exact nomatch ht
    · exact ⟨hvars d (binders_subset hd), trivial⟩
  have hbody := (wellScoped_lower _ e).body (around_nil hs) hfits receives_none
  refine hbody.bind fun stmts s' h => gives_pure ?_
  exact scoped_block.2 ⟨trivial, h.2.mono fun _ _ => trivial⟩

/-- The tree `{ var x = 1; { var x' = x; x' = if (true) x' else 2 } }`, with
both locals called `x`. -/
theorem normalize_captures_nothing_shadowed :
    let outer : Var := ⟨1, "x", .int⟩
    let inner : Var := ⟨2, "x", .int⟩
    let choice : Expr :=
      .ite {} .int (.boolLit {} true) (some (.local {} inner)) (some (.intLit {} 2))
    let tree : Expr := .block {} .void [.varDecl {} outer (some (.intLit {} 1)),
      .block {} .void [.varDecl {} inner (some (.local {} outer)),
        .binary {} .int .assign (.local {} inner) choice]]
    tree.TempFree ∧ Resolved tree tree ∧ Throughout Separate tree ∧
      Gives (normalize tree none) TempSupply.all fun t _ => Resolved tree t := by
  intro outer inner choice tree
  have hresolved : Resolved tree tree := by
    have houter : resolve [outer] outer = some outer := resolve_cons rfl []
    have hinner : resolve [inner, outer] inner = some inner := resolve_cons rfl [outer]
    simp [Resolved, tree, choice, spelling, houter, hinner, boolLit, intLit, declares, bare,
      scoped_leaf (e := const _ _ _) rfl, scoped_two (e := binary _ _ _ _ _) rfl]
  have hsep : Throughout Separate tree := by decide
  exact ⟨rfl, hresolved, hsep,
    normalize_captures_nothing tree rfl hresolved hsep TempSupply.all reserved_all⟩

/-- In `{ var x = 1; var x' = if (true) x else 2 }`, with both locals
called `x`, the branch reads the outer local. After normalization it
reads the inner one, which is declared before it. -/
theorem initial_value_reads_own_local :
    let outer : Var := ⟨1, "x", .int⟩
    let inner : Var := ⟨2, "x", .int⟩
    let choice : Expr :=
      .ite {} .int (.boolLit {} true) (some (.local {} outer)) (some (.intLit {} 2))
    let tree : Expr := .block {} .void
      [.varDecl {} outer (some (.intLit {} 1)), .varDecl {} inner (some choice)]
    tree.TempFree ∧ Resolved tree tree ∧
      ∃ t s, normalize tree none TempSupply.all = .ok t s ∧ ¬ Resolved tree t := by
  intro outer inner choice tree
  have hname : localName inner = localName outer := localName_eq rfl rfl rfl
  have hfound : resolve [outer] outer = some outer := resolve_cons rfl []
  have hcaptured : resolve [inner, outer] outer = some inner := resolve_cons hname [outer]
  refine ⟨rfl, ?_, _, _, rfl, fun h => ?_⟩
  · simp [Resolved, tree, choice, spelling, hfound, boolLit, intLit, declares, bare,
      scoped_leaf (e := const _ _ _) rfl]
  · simp [Resolved, spelling, hcaptured, statements, mkAssign, mkBinary, declares, bare,
      scoped_leaf (e := const _ _ _) rfl, scoped_two (e := binary _ _ _ _ _) rfl] at h
    exact absurd h.1.2 (by decide)

end Normalize.Scoping

end LuaBackend
