import LuaBackend.Proofs.Compile.NormalForm
import LuaBackend.Proofs.Normalize.Scoping.Temporaries

/-!
# Temporaries of a declaration

The members of a declaration take their temporaries from one supply, one
after the other. So each member has its temporaries in scope, and even the
statements of all members in one scope would not meet.
-/

namespace LuaBackend

open Expr Normalize Normalize.Scoping List

namespace Nulls

theorem recast_decided (admits : Nullability) (e : Expr) : Recast e (decided admits e) := by
  unfold decided
  cases hout : outcome? admits e with
  | none => exact Recast.refl e
  | some =>
    obtain ⟨loc, type, op, lhs, rhs, rfl, -, -⟩ := exists_of_outcome? hout
    exact ⟨rfl, fun _ _ _ _ => (scoped_leaf rfl).2 fun _ hv => nomatch hv⟩

/-- Folding brings no temporaries into a tree. -/
theorem tempFree_folded {admits : Nullability} {e : Expr} (h : e.TempFree) :
    (folded admits e).TempFree := by
  have hrecast : Recast e (folded admits e) := by
    rw [folded_eq_rebuild]
    exact (recast_retyped e).trans (Recast.rebuild (recast_decided admits) e.retyped)
  exact tempFree_of_scoped (hrecast.keeps temporaries _ []
    (scoped_of_tempFree (fun _ hm => hm.vars) h))

end Nulls

def Member.statements (m : Member) : List Expr :=
  match m.lowered with
  | some code => sequenceOf code
  | none => []

/-- Its code has no temporaries, and nothing of it is lowered. -/
structure Member.Given (m : Member) : Prop where
  code : ∀ code ∈ m.code, code.TempFree
  lowered : m.lowered = none

namespace Compile

variable {α : Type} {s s' : TempSupply}
variable {ms : List Member}

def Exhausted (failure : Failure) : Prop :=
  failure = .ofNormalize (.temporaries .exhausted) ∨ ∃ violation, failure = .notNormal violation

/-- From whatever session, the work is exhausted, or ends with a result and
a supply that have `Q`. -/
def Ends (act : LowerM α) (s : TempSupply) (Q : α → TempSupply → Prop) : Prop :=
  ∀ session, ∃ r ended, (act.run s) session = some (r, ended) ∧
    Meets (fun a => Q a.1 a.2) Exhausted r

theorem ends_of_settles {act : LowerM α} {P Q : α → TempSupply → Prop}
    (h : ∀ session, LowerSettles Exhausted act session s P) (hPQ : ∀ a s', P a s' → Q a s') :
    Ends act s Q := by
  intro session
  obtain ⟨r, hmeets, hact⟩ := (h session).mono (fun a => hPQ a.1 a.2) fun _ => id
  obtain ⟨ended, -, hrun⟩ := hact session (.refl session)
  exact ⟨r, ended, hrun, hmeets⟩

/-! ## Members -/

theorem gives_normalized_follows {admits : Nullability} {code tree : Expr}
    {assignee : Option Expr} (hc : code.TempFree) (ha : ∀ p ∈ assignee, p.TempFree)
    (htree : tree = code ∨ tree = Nulls.folded admits code) (hs : Reserved s) :
    Gives (normalized tree assignee) s fun r s' => Follows s (sequenceOf r) s' := by
  have htree : tree.TempFree := by
    obtain rfl | rfl := htree
    · exact hc
    · exact Nulls.tempFree_folded hc
  unfold normalized
  split
  · exact gives_normalizeFunction_follows htree rfl hs
  · exact gives_normalize_follows htree ha hs

/-- Members that a run has left: each by itself, and all together. -/
structure Together (s : TempSupply) (ms : List Member) (s' : TempSupply) : Prop where
  each : ∀ m ∈ ms, ScopedSeq temporaries (fun _ => True) [] m.statements
  all : Follows s (ms.flatMap Member.statements) s'

/-- What is not lowered has no statements. -/
theorem together_given (h : ∀ m ∈ ms, m.Given) : Together s ms s := by
  have hnil : ∀ m ∈ ms, m.statements = [] := by
    intro m hm
    rw [Member.statements, (h m hm).lowered]
  refine ⟨fun m hm => ?_, ?_⟩
  · rw [hnil m hm]
    exact scopedSeq_nil
  · rw [flatMap_eq_nil_iff.2 hnil]
    exact follows_nil s

/-- Members of one run after those of another. -/
theorem Together.append {s'' : TempSupply} {ms' : List Member} (h : Together s ms s')
    (h' : Together s' ms' s'') : Together s (ms ++ ms') s'' := by
  refine ⟨forall_mem_append.2 ⟨h.each, h'.each⟩, ?_⟩
  rw [flatMap_append]
  exact h.all.append h'.all

theorem together_singleton {m : Member} (hs : Reserved s) (h : Follows s m.statements s') :
    Together s [m] s' := by
  refine ⟨fun m' hm => ?_, ?_⟩
  · rw [mem_singleton.1 hm]
    exact (h [] (around_nil hs)).1
  · rwa [flatMap_singleton]

theorem Together.reserved (h : Together s ms s') (hs : Reserved s) :
    Reserved s' := (h.all [] (around_nil hs)).2.reserved

theorem tempFree_memberPlace (owner : TypePath) (isStatic : Bool) (m : Member) :
    (memberPlace owner isStatic m).TempFree := by
  unfold memberPlace
  split
  · exact rfl
  · exact rfl

/-- Lowering a member keeps all of them together. -/
theorem course_given (session : Session) (hs : Reserved s) :
    Course Exhausted session Member.Given (Together s) where
  given h hms := h.append (together_given hms)
  code {_ _ m _ place} h hm hcode hp tree htree := by
    have hplace : ∀ p ∈ place, p.TempFree := by
      intro p hmem
      obtain ⟨owner, isStatic, rfl⟩ := hp p hmem
      exact tempFree_memberPlace owner isStatic m
    have hs' := h.reserved hs
    refine accepts_of_gives (gives_normalized_follows (hm.code _ hcode) hplace htree hs') (.inl rfl)
      fun e s' he => ⟨h.append (together_singleton hs' he), fun violation _ => .inr ⟨violation, rfl⟩⟩

/-- **Temporaries are well scoped.** Take a tree without temporaries, and
a supply that has handed out none below the reserved numbers. Its
statements, also where its value goes to a place, read each temporary in
the scope of exactly one declaration, and declare none in the scope of
another of its number; so do a value with its statements before it, and a
function literal. The same holds of every member of a declaration, and of
all of them in one scope. -/
theorem normalized_temporaries_in_scope (s : TempSupply) (hs : Reserved s) :
    (∀ e : Expr, e.TempFree → (∀ assignee : Option Expr, (∀ p ∈ assignee, p.TempFree) →
        Gives (normalize e assignee) s fun t _ => Scoped temporaries (fun _ => True) [] t) ∧
      (Gives (normalizeValue e) s fun h _ =>
        ScopedSeq temporaries (fun _ => True) [] (h.stmts ++ [h.value])) ∧
      (e.hoists = false → Gives (normalizeFunction e) s fun t _ =>
        Scoped temporaries (fun _ => True) [] t)) ∧
    ∀ decl : Decl, (∀ m ∈ decl.members, m.Given) → Ends (lowerDecl decl) s fun decl _ =>
        (∀ m ∈ decl.members, ∀ code ∈ m.lowered, Scoped temporaries (fun _ => True) [] code) ∧
        ScopedSeq temporaries (fun _ => True) [] (decl.members.flatMap Member.statements) := by
  have hnil : Around [] s := around_nil hs
  refine ⟨fun e he => ⟨fun assignee ha => ?_, ?_, fun hh => ?_⟩, fun decl hdecl => ?_⟩
  · exact (gives_normalize_follows he ha hs).mono fun _ _ h => scoped_of_sequence (h [] hnil).1
  · exact (gives_normalizeValue_follows he hs).mono fun _ _ h => (h [] hnil).1
  · exact (gives_normalizeFunction_follows he hh hs).mono fun _ _ h =>
      scoped_of_sequence (h [] hnil).1
  · have hnone : Together s [] s := together_given fun _ hm => nomatch hm
    refine ends_of_settles (fun session => (course_given session hs).lowerDecl hnone hdecl)
      fun decl _ h => ⟨fun m hm code hcode => ?_, ?_⟩
    · have heach := h.each m hm
      rw [Member.statements, hcode] at heach
      exact scoped_of_sequence heach
    · exact (h.all [] hnil).1

/-- A static variable with the initial value `a[f()] + { x += 1; x }`,
whose left operand has to be kept while the block runs. -/
theorem normalized_temporaries_in_scope_block :
    let x : Expr := .local {} ⟨1, "x", .int⟩
    let call : Expr := .call {} .int (.ident {} .dynamic "f") []
    let block : Expr := .block {} .int [.binary {} .int (.compound .add) x (.intLit {} 1), x]
    let tree : Expr := .binary {} .int .add (.index {} .int (.local {} ⟨2, "a", .dynamic⟩) call) block
    let total : Member := { name := "total", kind := .var, type := .int, code := some tree }
    let decl : Decl := .cls { path := ⟨[], "Sum"⟩, statics := [total] }
    Reserved TempSupply.all ∧ tree.TempFree ∧ (∀ m ∈ decl.members, m.Given) ∧
      (Gives (normalize tree none) TempSupply.all fun t _ =>
        Scoped temporaries (fun _ => True) [] t) ∧
      Ends (lowerDecl decl) TempSupply.all fun decl _ =>
        (∀ m ∈ decl.members, ∀ code ∈ m.lowered, Scoped temporaries (fun _ => True) [] code) ∧
        ScopedSeq temporaries (fun _ => True) [] (decl.members.flatMap Member.statements) := by
  intro x call block tree total decl
  have htree : tree.TempFree := rfl
  have hdecl : ∀ m ∈ decl.members, m.Given := by
    intro m hm
    rw [mem_singleton.1 hm]
    exact ⟨fun code hcode => Option.some.inj hcode ▸ htree, rfl⟩
  have hmain := normalized_temporaries_in_scope TempSupply.all reserved_all
  exact ⟨reserved_all, htree, hdecl, (hmain.1 tree htree).1 none (fun _ hp => nomatch hp),
    hmain.2 decl hdecl⟩

end Compile

end LuaBackend
