import LuaBackend.Proofs.Compile.Settled
import LuaBackend.Proofs.Normalize.NormalForm
import LuaBackend.Proofs.Nulls.Fold

/-!
# The check for normal form passes

Every body and initial value is checked for normal form before it is
written, and a violation fails the whole declaration. For code that stores
into places only and has plain default values the check has nothing to
find. `Passes` says of some work that no such check fails in it.
-/

namespace LuaBackend

def Member.Storable (m : Member) : Prop := ∀ code ∈ m.code, code.Storable

namespace Compile

open Expr Normalize

variable {α β : Type} {act : Work α}

def Unchecked (failure : Failure) : Prop := ∀ violation, failure ≠ .notNormal violation

/-- From whatever session the work ends, and no check for normal form fails. -/
def Passes (act : Work α) : Prop :=
  ∀ session, ∃ r ended, act session = some (r, ended) ∧ Meets (fun _ => True) Unchecked r

theorem passes_of_settles (h : ∀ session, Settles Unchecked act session) : Passes act := by
  intro session
  obtain ⟨r, hmeets, hact⟩ := h session
  obtain ⟨ended, -, hrun⟩ := hact session (.refl session)
  exact ⟨r, ended, hrun, hmeets⟩

/-- A failed check comes after work that passes. -/
theorem Passes.of_bind {f : α → Work β} {session ended : Session} {violation : Violation}
    (h : Passes act) (hrun : (act >>= f) session = some (.error (.notNormal violation), ended)) :
    ∃ a started, f a started = some (.error (.notNormal violation), ended) := by
  obtain ⟨r, between, hact, hmeets⟩ := h session
  rw [bind_run, hact] at hrun
  cases r with
  | ok a => exact ⟨a, between, hrun⟩
  | error failure =>
    cases hrun
    exact absurd rfl (hmeets violation)

/-- Normalization fails only for want of temporaries. -/
theorem accepts_of_gives {allowed : Failure → Prop} {act : Normalize.Norm Expr} {s : TempSupply}
    {P Q : Expr → TempSupply → Prop} (h : Gives act s P)
    (hfault : allowed (.ofNormalize (.temporaries .exhausted)))
    (hcheck : ∀ e s', P e s' → Q e s' ∧ Checked allowed e) : Accepts allowed act s Q := by
  unfold Accepts
  split
  · rename_i hr
    exact hcheck _ _ (h.of_ok hr)
  · rename_i hr
    rw [h.fault_eq hr]
    exact hfault

/-- What is normalized for such code is in normal form, be it the body of a
function or the tree itself. -/
theorem accepts_normalized {admits : Nullability} {code tree : Expr} {assignee : Option Expr}
    (hc : Storable code) (ha : ∀ p ∈ assignee, NormalPlace p)
    (htree : tree = code ∨ tree = Nulls.folded admits code) (s : TempSupply) :
    Accepts Unchecked (normalized tree assignee) s fun _ _ => True := by
  have htree : Storable tree := by
    obtain rfl | rfl := htree
    · exact hc
    · exact (Nulls.milder_folded _ code).storable hc
  have hnormal : Gives (normalized tree assignee) s fun r _ =>
      (normalStatements r).bind (violation .statement) = none := by
    unfold normalized
    split
    · refine (gives_normalizeFunction htree s).mono fun r _ h => ?_
      obtain ⟨params', body', rfl, hbody⟩ := h
      cases body' with
      | none => rfl
      | some b => exact hbody b rfl
    · refine (gives_body_normal htree ha s).bind fun stmts _ hs => gives_pure ?_
      exact violation_statements hs
  exact accepts_of_gives hnormal (fun _ h => nomatch h) fun _ _ hnone =>
    ⟨trivial, fun _ hsome => nomatch hnone.symm.trans hsome⟩

theorem normalPlace_memberPlace (owner : TypePath) (isStatic : Bool) (m : Member) :
    NormalPlace (memberPlace owner isStatic m) := by
  unfold memberPlace
  split
  · exact ⟨rfl, fun _ => rfl⟩
  · exact ⟨rfl, fun _ => rfl⟩

theorem course_storable (session : Session) :
    Course Unchecked session Member.Storable fun _ _ => True where
  given _ _ := trivial
  code _ hm hcode hp tree htree := by
    refine accepts_normalized (hm _ hcode) (fun p hmem => ?_) htree _
    obtain ⟨owner, isStatic, rfl⟩ := hp p hmem
    exact normalPlace_memberPlace owner isStatic _

theorem unchecked_ofEmit (fault : Emit.Fault) : Unchecked (.ofEmit fault) := by
  intro violation h
  cases fault <;> exact nomatch h

theorem passes_declCode {decl : Decl} (h : ∀ m ∈ decl.members, m.Storable) :
    Passes (unitCode decl.path.dotted (lowerDecl decl) Emit.declaration) :=
  passes_of_settles fun session =>
    ((course_storable session).lowerDecl trivial h).unitCode unchecked_ofEmit

theorem passes_exprCode {e : Expr} (h : e.Storable) :
    Passes (unitCode "<expression>" (lowerCode e none) Emit.statements) :=
  passes_of_settles fun _ => (lowerSettles_lowerCode fun _ htree =>
    accepts_normalized h normalPlace_none htree _).unitCode unchecked_ofEmit

/-- **Normalization ends in normal form.** A tree that stores into places
only and has plain default values leaves statements in normal form, also
where its value goes to a place with plain parts; a function literal has
a body in normal form; a value is plain, after statements in normal form.
So such code is written without failing its check for normal form, and a
unit made of it fails that way only if its hooks do of their own
accord. -/
theorem normalization_reaches_normalForm : (∀ e : Expr, e.Storable → (∀ s assignee,
        (∀ p ∈ assignee, p.isPlace = true ∧ ∀ c ∈ p.children, c.violation .value = none) →
        Gives (normalize e assignee) s fun r _ => r.InNormalForm) ∧
      (∀ s loc type params result body, e = .function loc type params result body →
        Gives (normalizeFunction e) s fun r _ => ∃ params' body',
          r = .function loc type params' result body' ∧ ∀ b ∈ body', b.InNormalForm) ∧
      (∀ s, Gives (normalizeValue e) s fun h _ =>
        (∀ stmt ∈ h.stmts, stmt.InNormalForm) ∧ h.value.violation .value = none)) ∧
    (∀ decl : Decl, (∀ m ∈ decl.members, m.Storable) →
      Passes (unitCode decl.path.dotted (lowerDecl decl) Emit.declaration) ∧
      ∀ fold session violation ended,
        declText fold decl session = some (.error (.notNormal violation), ended) →
        ∃ text started, runDeclHooks fold (.ofDecl decl) decl text started =
          some (.error (.notNormal violation), ended)) ∧
    ∀ e : Expr, e.Storable →
      Passes (unitCode "<expression>" (lowerCode e none) Emit.statements) ∧
      ∀ fold session violation ended,
        exprText fold e session = some (.error (.notNormal violation), ended) →
        ∃ text started, runExprHooks fold e text started =
          some (.error (.notNormal violation), ended) := by
  refine ⟨fun e he => ⟨fun s assignee ha => ?_, ?_, gives_normalizeValue he⟩,
    fun decl hdecl => ⟨passes_declCode hdecl, fun _ _ _ _ => (passes_declCode hdecl).of_bind⟩,
    fun e he => ⟨passes_exprCode he, fun _ _ _ _ => (passes_exprCode he).of_bind⟩⟩
  · exact gives_normalize he (fun p hp => normalPlace_of_children (ha p hp).1 (ha p hp).2) s
  · rintro s loc type params result body rfl
    exact gives_normalizeFunction he s

/-- The tree `a[f()] = { x += 1; x }`, as a statement and in a unit. -/
theorem normalization_reaches_normalForm_block :
    let x : Expr := .local {} ⟨1, "x", .int⟩
    let call : Expr := .call {} .int (.ident {} .dynamic "f") []
    let block : Expr := .block {} .int [.binary {} .int (.compound .add) x (.intLit {} 1), x]
    let tree : Expr := .binary {} .int .assign (.index {} .int (.local {} ⟨2, "a", .dynamic⟩) call) block
    tree.Storable ∧ (Gives (normalize tree none) TempSupply.all fun r _ => r.InNormalForm) ∧
      Passes (unitCode "<expression>" (lowerCode tree none) Emit.statements) ∧
      ∀ session violation ended, exprText (fun _ _ _ text => pure text) tree session ≠
        some (.error (.notNormal violation), ended) := by
  intro x call block tree
  have htree : tree.Storable := rfl
  obtain ⟨hpasses, hfails⟩ := normalization_reaches_normalForm.2.2 tree htree
  refine ⟨htree, (normalization_reaches_normalForm.1 tree htree).1 _ none (fun _ hp => nomatch hp),
    hpasses, fun session violation ended hrun => ?_⟩
  obtain ⟨text, started, hhooks⟩ := hfails _ _ _ _ hrun
  cases hhooks

end Compile

end LuaBackend
