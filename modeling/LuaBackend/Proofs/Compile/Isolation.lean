import LuaBackend.Proofs.Compile.HookRuns
import Mathlib.Data.List.ReduceOption

/-!
# Declarations compile in isolation

Everything that is done for a declaration settles, whether it succeeds or
fails, if its hooks do: hooks that are functions of their text, to put it
plainly.
-/

namespace LuaBackend.Compile

open Session List

variable {kind : HookKind} {failure : Failure} {subject : Subject} {session : Session}
  {allowed : Failure → Prop}
variable {α : Type} {decl : Decl}

/-- Hooks that settle are run so, one after the other. -/
theorem settles_foldFrom {position : Nat} {left : List Hook}
    (hleft : (session.chain.ofKind kind).drop position = left)
    (h : ∀ hook ∈ left, ∀ text, Settles allowed (perform foldFrom (hook subject text)) session)
    (text : String) : Settles allowed (foldFrom kind subject position text) session := by
  induction left generalizing position text with
  | nil =>
    rw [foldFrom_eq]
    refine Settles.get ?_ fun t ht => by rw [ht.chain]
    rw [getElem?_of_drop_nil hleft]
    exact settles_pure trivial
  | cons hook left ih =>
    rw [forall_mem_cons] at h
    obtain ⟨hhook, hdrop⟩ := getElem?_of_drop_cons hleft
    rw [foldFrom_eq]
    refine Settles.get ?_ fun t ht => by rw [ht.chain]
    rw [hhook]
    refine (settles_recordIf _ _).bind fun _ _ => (h.1 text).bind fun text _ =>
      (settles_recordIf _ _).bind fun _ _ => ih hdrop h.2 text

/-- Wherever a run of the session calls them, its hooks end in one way, with
a text or with a failure that is reported. -/
def Session.HooksReport (session : Session) : Prop :=
  ∀ entry ∈ session.chain.hooks, ∀ subject text,
    Settles Reported (perform foldFrom (entry.2 subject text)) session.enter.enter

/-- It asks for no further run, does not depend on what was recorded, and
fails only in a way that is reported. -/
inductive Script.Plain : Script → Prop
  | done {text} : Plain (.done text)
  | fail {failure : Failure} : Reported failure → Plain (.fail failure)
  | look {next : View → Script} : (∀ s t : Session, s.Alike t → next t.view = next s.view) →
    (∀ view, Plain (next view)) → Plain (.look next)
  | note {text next} : (∀ r, Plain (next r)) → Plain (.ask (.note text) next)
  | refused {op next} : op.isSetting = true → (∀ r, Plain (next r)) → Plain (.ask op next)

theorem settles_attempt {act : Work α} (h : Settles (fun _ => True) act session) :
    Settles Reported (attempt act) session := by
  obtain ⟨r, -, hact⟩ := h
  refine ⟨.ok r, trivial, fun started hs => ?_⟩
  obtain ⟨ended, hgrows, hrun⟩ := hact started hs
  exact ⟨ended, hgrows, by rw [attempt, hrun]⟩

/-- While a run is going on, what would change the session fails in one way. -/
theorem settles_refused (hactive : session.chain.isActive = true) {op : Operation Hook}
    (hop : op.isSetting = true) : Settles (fun _ => True) (op.work foldFrom) session := by
  have hfails (failure) (h : ∀ s : Session, s.chain.isActive = true →
      op.work foldFrom s = some (.error failure, s)) : Settles (fun _ => True) (op.work foldFrom)
        session :=
    ⟨.error failure, trivial, fun started hs =>
      ⟨started, .refl started, h started (hs.chain ▸ hactive)⟩⟩
  have hregistration (hreg : op.isRegistration = true) : Settles (fun _ => True)
      (op.work foldFrom) session := by
    refine hfails busy fun s hs => ?_
    obtain ⟨message, hwork⟩ := exists_work hreg s
    rw [hwork, if_pos hs]
  cases op with
  | register | registerExpr => exact hregistration rfl
  | setNullability =>
    refine hfails (.internal .state
      "nullability policy cannot change while a compilation run is active") fun s hs => ?_
    change ((if s.chain.isActive then _ else _ : Work PUnit) >>= _) s = _
    rw [if_pos hs]
    rfl
  | _ => cases hop

theorem Script.Plain.settles (hactive : session.chain.isActive = true) {script : Script}
    (h : script.Plain) : Settles Reported (perform foldFrom script) session := by
  induction h with
  | done => exact settles_pure trivial
  | fail h => exact settles_throw h
  | look hsame _ ih =>
    exact Settles.get (ih _) fun t ht => congrArg (perform foldFrom) (hsame session t ht)
  | note _ ih =>
    exact (settles_attempt ((settles_record _).bind fun _ _ =>
      settles_pure trivial)).bind fun r _ => ih r
  | refused hop _ ih => exact (settles_attempt (settles_refused hactive hop)).bind fun r _ => ih r

/-- Plain hooks do what is asked of hooks. -/
theorem Session.hooksReport_of_plain (h : ∀ entry ∈ session.chain.hooks, ∀ subject text,
    (entry.2 subject text).Plain) : session.HooksReport :=
  fun entry hentry subject text => (h entry hentry subject text).settles (isActive_enter _)

/-! ## Units -/

def reportOf (path : String) (loc : Loc) :
    Except Failure String → Except Failure (Output × List Diagnostic)
  | .ok text => .ok ({ path, text, ok := true }, [])
  | .error failure =>
    match failure.diagnostic? loc with
    | some d => .ok ({ path }, [d])
    | none => .error failure

/-- A failure becomes a diagnostic of the unit. -/
theorem Settles.guarded {allowed' : Failure → Prop} {act : Work String} {path : String} {loc : Loc}
    {Q : Output × List Diagnostic → Prop} (h : Settles allowed act session)
    (hreport : ∀ r, Meets (fun _ => True) allowed r → Meets Q allowed' (reportOf path loc r)) :
    Settles allowed' (guarded path loc act) session Q := by
  obtain ⟨r, hmeets, hact⟩ := h
  refine ⟨_, hreport r hmeets, fun started hs => ?_⟩
  obtain ⟨ended, hgrows, hrun⟩ := hact started hs
  refine ⟨ended, hgrows, ?_⟩
  rw [Compile.guarded, hrun]
  cases r with
  | ok => rfl
  | error failure =>
    dsimp only [reportOf]
    cases failure.diagnostic? loc <;> rfl

/-- Its diagnostics are those of the null check, and one more exactly if it
has no text. -/
structure UnitOf (decl : Decl) (unit : Output × List Diagnostic) : Prop where
  path : unit.1.path = decl.path.dotted
  diagnostics : ∃ nulls failures, unit.2 = nulls ++ failures ∧ (∀ d ∈ nulls, d.code = "L2001") ∧
    (unit.1.ok = true → failures = []) ∧
    (unit.1.ok = false → unit.1.text = "" ∧
      ∃ d, failures = [d] ∧ (d.code = "L1001" ∨ d.code = "L1002"))

theorem code_of_mem_nullsOf {violations : Nullability → List Nulls.Violation} {d : Diagnostic}
    (h : d ∈ nullsOf session violations) : d.code = "L2001" := by
  unfold nullsOf at h
  split at h
  · obtain ⟨violation, -, rfl⟩ := mem_map.1 h
    rfl
  · exact nomatch h

/-- A reported failure gives one diagnostic of the backend. -/
theorem Reported.diagnostic (h : Reported failure) (loc : Loc) :
    ∃ d, failure.diagnostic? loc = some d ∧ (d.code = "L1001" ∨ d.code = "L1002") := by
  cases failure with
  | unsupported => exact ⟨_, rfl, .inl rfl⟩
  | notNormal => exact ⟨_, rfl, .inr rfl⟩
  | internal => exact ⟨_, rfl, .inr rfl⟩
  | «foreign» message => exact absurd rfl (h message)

abbrev Never (_ : Failure) : Prop := False

theorem Settles.ends {act : Work α} {a : α} (h : Settles Never act session (· = a))
    {started : Session} (hs : session.Alike started) :
    ∃ ended, session.Alike ended ∧ act started = some (.ok a, ended) := by
  obtain ⟨r, hmeets, hact⟩ := h
  obtain ⟨ended, hgrows, hrun⟩ := hact started hs
  cases r with
  | ok => exact ⟨ended, hs.trans hgrows.alike, hmeets ▸ hrun⟩
  | error => exact hmeets.elim

theorem mem_ofKind {chain : Chain} {hook : Hook} (h : hook ∈ chain.ofKind kind) :
    (kind, hook) ∈ chain.hooks := by
  obtain ⟨⟨k, hook'⟩, hmem, heq⟩ := mem_filterMap.1 h
  dsimp only at heq
  split at heq
  · rename_i hkind
    cases heq
    exact hkind ▸ hmem
  · cases heq

/-- The text of a declaration, with its hooks. -/
theorem settles_declText (h : session.HooksReport) (decl : Decl) :
    Settles Reported (declText foldFrom decl) session.enter := by
  refine (settles_declCode decl).bind fun text _ => ?_
  have hkind : HookKind.ofDecl decl ≠ .expression := by
    cases decl <;> nofun
  rw [runDeclHooks, if_neg hkind]
  have hhooks : ∀ hook ∈ session.enter.enter.chain.ofKind (.ofDecl decl), ∀ text,
      Settles Reported (perform foldFrom (hook (.decl decl) text)) session.enter.enter :=
    fun hook hmem => h _ (mem_ofKind hmem) (.decl decl)
  exact Settles.whileActive (settles_foldFrom drop_zero hhooks text)

/-- A declaration is settled as a unit of its own. -/
theorem exists_unitOf (h : session.HooksReport) (decl : Decl) : ∃ unit, UnitOf decl unit ∧
    Settles Never (compileDecl foldFrom decl) session.enter (· = unit) := by
  let nulls := nullsOf session.enter (Nulls.declViolations · decl)
  have hguarded : Settles Never (guarded decl.path.dotted decl.loc (declText foldFrom decl))
      session.enter fun unit => UnitOf decl (unit.1, nulls ++ unit.2) := by
    refine (settles_declText h decl).guarded fun r hr => ?_
    cases r with
    | ok => exact ⟨rfl, nulls, [], rfl, fun _ => code_of_mem_nullsOf, fun _ => rfl, nofun⟩
    | error =>
      obtain ⟨d, hd, hcode⟩ := hr.diagnostic decl.loc
      rw [reportOf, hd]
      exact ⟨rfl, nulls, [d], rfl, fun _ => code_of_mem_nullsOf, nofun,
        fun _ => ⟨rfl, d, rfl, hcode⟩⟩
  have hunit : Settles Never (compileDecl foldFrom decl) session.enter (UnitOf decl) :=
    (settles_declNulls decl).bind fun _ hnulls => hguarded.bind fun _ hunit =>
      settles_pure (hnulls ▸ hunit)
  obtain ⟨r, hmeets, hact⟩ := hunit
  cases r with
  | ok unit => exact ⟨unit, hmeets, .ok unit, rfl, hact⟩
  | error => exact hmeets.elim

def gathered (units : List (Output × List Diagnostic)) : Result where
  outputs := units.map Prod.fst
  report := ⟨units.flatMap Prod.snd⟩

/-- The units of a run are gathered in order. -/
theorem settles_gathered {unit : Decl → Output × List Diagnostic}
    (h : ∀ decl, Settles Never (compileDecl foldFrom decl) session (· = unit decl)) :
    ∀ decls : List (Option Decl), Settles Never (compileEach foldFrom decls) session
      (· = ((gathered (decls.reduceOption.map unit)).outputs,
        (gathered (decls.reduceOption.map unit)).report.entries))
  | [] => settles_pure rfl
  | none :: rest => settles_gathered h rest
  | some decl :: rest => (h decl).bind fun _ hdecl => (settles_gathered h rest).bind fun _ hrest =>
      settles_pure (by rw [hdecl, hrest]; rfl)

/-- **Declarations compile in isolation.** Take a session whose hooks
return text or fail in a way that is reported. Each declaration then has a
unit of its own: an output, with diagnostics of the null check and, exactly
if the output has no text, one diagnostic about the failure. A run over
any declarations, from whatever session alike, ends with the units of
those that are there, in their order, and leaves the session alike: no
hook or policy has changed, and as many runs are going on as before. So
a run over two lists is a run over the one and a run over the other. -/
theorem declarations_compile_in_isolation (session : Session) (h : session.HooksReport) :
    (∃ unit : Decl → Output × List Diagnostic, (∀ decl, UnitOf decl (unit decl)) ∧
      ∀ decls started, session.Alike started → ∃ ended, session.Alike ended ∧
        compile decls started = some (.ok (gathered (decls.reduceOption.map unit)), ended)) ∧
    ∀ decls₁ decls₂ started₁ started₂ started, session.Alike started₁ → session.Alike started₂ →
      session.Alike started → ∃ result₁ ended₁ result₂ ended₂ result ended,
        compile decls₁ started₁ = some (.ok result₁, ended₁) ∧
        compile decls₂ started₂ = some (.ok result₂, ended₂) ∧
        compile (decls₁ ++ decls₂) started = some (.ok result, ended) ∧
        result.outputs = result₁.outputs ++ result₂.outputs ∧
        result.report.entries = result₁.report.entries ++ result₂.report.entries ∧
        ended.chain.isActive = started.chain.isActive := by
  choose unit hunit hsettles using exists_unitOf h
  have hrun (decls started) (hs : session.Alike started) : ∃ ended, session.Alike ended ∧
      compile decls started = some (.ok (gathered (decls.reduceOption.map unit)), ended) := by
    have hcompile : Settles Never (compile decls) session
        (· = gathered (decls.reduceOption.map unit)) :=
      Settles.whileActive <| (settles_gathered hsettles decls).bind fun _ heach =>
        (settles_logPhase _ _).bind fun _ _ => settles_pure (by rw [heach])
    exact hcompile.ends hs
  refine ⟨⟨unit, hunit, hrun⟩, fun decls₁ decls₂ started₁ started₂ started h₁ h₂ hs => ?_⟩
  obtain ⟨ended₁, -, hrun₁⟩ := hrun decls₁ _ h₁
  obtain ⟨ended₂, -, hrun₂⟩ := hrun decls₂ _ h₂
  obtain ⟨ended, he, hboth⟩ := hrun (decls₁ ++ decls₂) _ hs
  refine ⟨_, ended₁, _, ended₂, _, ended, hrun₁, hrun₂, hboth, ?_, ?_, ?_⟩
  · dsimp only [gathered]
    rw [reduceOption_append, map_append, map_append]
  · dsimp only [gathered]
    rw [reduceOption_append, map_append, flatMap_append]
  · rw [he.chain, hs.chain]

/-- The hook for classes tries to register itself and adds a line all the
same, the one for enums refuses them. Of a missing declaration, an enum and
a class, the enum alone fails. -/
theorem declarations_compile_in_isolation_refused_enum :
    let refuse : Hook := fun _ _ => .fail (.unsupported "no enums" {})
    let extend : Hook := fun _ text => .ask (.registerExpr none) fun _ => .done (text ++ "-- end\n")
    let session : Session :=
      { Session.new {} with chain := { hooks := [(.enum, refuse), (.cls, extend)] } }
    session.HooksReport ∧
      (∃ unit : Decl → Output × List Diagnostic, (∀ decl, UnitOf decl (unit decl)) ∧
        ∀ decls started, session.Alike started → ∃ ended, session.Alike ended ∧
          compile decls started = some (.ok (gathered (decls.reduceOption.map unit)), ended)) ∧
      ∃ result ended, compile [none, some (.enum ⟨[], "Color"⟩ {} []),
          some (.cls { path := ⟨[], "Main"⟩ })] session = some (.ok result, ended) ∧
        result.outputs.map Output.ok = [false, true] ∧
        result.report.entries.map Diagnostic.code = ["L1001"] := by
  intro refuse extend session
  have hhooks : session.HooksReport := by
    refine Session.hooksReport_of_plain ?_
    refine forall_mem_cons.2 ⟨fun _ _ => ?_, forall_mem_singleton.2 fun _ _ => ?_⟩
    · exact .fail nofun
    · exact .refused rfl fun _ => .done
  exact ⟨hhooks, (declarations_compile_in_isolation session hhooks).1, _, _,
    compile_of_bounded (n := 2) rfl, rfl, rfl⟩

end LuaBackend.Compile
