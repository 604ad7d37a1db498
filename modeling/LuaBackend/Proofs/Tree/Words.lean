import LuaBackend.Lua.Lexical
import LuaBackend.Proofs.Tree.Scope

/-!
# Words of a tree

The names in a tree that generated code takes over: variables, types, and
identifiers that stand for nothing in the program, of which some are
intrinsics. Names of members are not among them, since a member may have
any name.
-/

namespace LuaBackend

/-- A name that a node holds. -/
inductive Word where
  | var (var : Var)
  | type (path : TypePath)
  | ident (name : String)

/-- The word is one that programs are made of: a name of letters, digits
and underscores that does not begin with a digit, or an identifier other
than the two intrinsics that take code or the name of a global as text. A
temporary needs no name. -/
def Word.isPlain : Word → Bool
  | var v => v.isTemp || Lua.isName v.name
  | type path => (path.pack ++ [path.name]).all Lua.isName
  | ident name => name ≠ "__lua__" && name ≠ "__global__"

namespace Expr

def paths : Expr → List TypePath
  | typeRef _ _ path => [path]
  | new _ _ cls _ _ => [cls]
  | cast _ _ checked _ => checked.toList
  | field _ _ ref _ => if ref.access = .static || ref.access = .enumCtor then [ref.owner] else []
  | _ => []

def ident? : Expr → Option String
  | ident _ _ name => some name
  | _ => none

def words (e : Expr) : List Word :=
  e.vars.map .var ++ (e.paths.map .type ++ e.ident?.toList.map .ident)

/-- Every word of the tree is as `W` asks. -/
def Worded (W : Word → Prop) (e : Expr) : Prop := e.Throughout fun n => ∀ w ∈ n.words, W w

section Worded

variable {W : Word → Prop} {e : Expr}

instance [DecidablePred W] : Decidable (e.Worded W) :=
  inferInstanceAs (Decidable (e.Throughout fun n => ∀ w ∈ n.words, W w))

/-- The words of a node are its variables, its types and the identifier that
it is. -/
theorem forall_mem_words : (∀ w ∈ e.words, W w) ↔
    (∀ v ∈ e.vars, W (.var v)) ∧ (∀ p ∈ e.paths, W (.type p)) ∧
      ∀ name ∈ e.ident?, W (.ident name) := by
  simp only [words, List.forall_mem_append, List.forall_mem_map, Option.mem_toList, Option.mem_def]

/-- The words of a tree, one level down. -/
theorem worded_iff : e.Worded W ↔ (∀ w ∈ e.words, W w) ∧ ∀ c ∈ e.children, c.Worded W :=
  throughout_iff

end Worded

section Rebuilt

variable {W : Word → Prop}

/-- Changing the children keeps the words of the node. -/
theorem words_mapChildren {g : Expr → Expr} (e : Expr) : (e.mapChildren g).words = e.words := by
  rw [words, words, vars_mapChildren]
  cases e <;> rfl

theorem words_retype (e : Expr) : e.retype.words = e.words := by
  cases e <;> rfl

/-- Bringing the types of a tree up to date keeps its words. -/
theorem Worded.retyped {e : Expr} (h : e.Worded W) : e.retyped.Worded W := by
  revert h
  refine rebuild_induction (P := fun e e' => e.Worded W → e'.Worded W) id (fun e ih h => ?_) e
  rw [worded_iff, words_retype, children_retype, words_mapChildren, children_mapChildren]
  exact ⟨h.node, List.forall_mem_map.2 fun c hc => ih c hc (h.child hc)⟩

end Rebuilt

end Expr

end LuaBackend
