import LuaBackend.Compile.Run

/-!
# Settled work

A run changes nothing in its session but the trace and the log: the
session `Grows`. Sessions that differ in these alone are `Alike`, and work
that `Settles` ends in all of them with one result. What is done for a
unit before its hooks are run settles. A `Course` says what holds of the
members of a declaration while they are lowered one after the other.
-/

namespace LuaBackend

open List

def ClassDecl.members (decl : ClassDecl) : List Member :=
  decl.ctor.toList ++ (decl.fields ++ decl.statics)

def Decl.members : Decl → List Member
  | .cls decl => decl.members
  | .abstract _ _ _ (some impl) => impl.members
  | _ => []

namespace Compile

variable {α β : Type}

/-- The sessions differ at most in what they have recorded. -/
structure Session.Alike (s t : Session) : Prop where
  options : t.options = s.options
  admits : t.admits = s.admits
  chain : t.chain = s.chain

namespace Session

variable {s t u : Session}

theorem Alike.refl (s : Session) : s.Alike s := ⟨rfl, rfl, rfl⟩

theorem Alike.trans (h : s.Alike t) (h' : t.Alike u) : s.Alike u :=
  ⟨h'.options.trans h.options, h'.admits.trans h.admits, h'.chain.trans h.chain⟩

theorem Alike.enter (h : s.Alike t) : s.enter.Alike t.enter := by
  refine ⟨h.options, h.admits, ?_⟩
  rw [Session.enter, h.chain]
  rfl

theorem Alike.leave (h : s.enter.Alike t) : s.Alike t.leave := by
  refine ⟨h.options, h.admits, ?_⟩
  rw [Session.leave, h.chain]
  rfl

/-- The session has recorded more, and is alike. -/
structure Grows (s t : Session) : Prop where
  alike : s.Alike t
  trace : s.trace <+: t.trace

theorem Grows.refl (s : Session) : s.Grows s := ⟨.refl s, prefix_rfl⟩

theorem Grows.trans (h : s.Grows t) (h' : t.Grows u) : s.Grows u :=
  ⟨h.alike.trans h'.alike, h.trace.trans h'.trace⟩

/-- A run that is over leaves only what it has recorded. -/
theorem Grows.leave (h : s.enter.Grows t) : s.Grows t.leave := ⟨h.alike.leave, h.trace⟩

end Session

/-- A value that has `Q`, or a failure that is allowed. -/
def Meets (Q : α → Prop) (allowed : Failure → Prop) : Except Failure α → Prop
  | .ok a => Q a
  | .error failure => allowed failure

/-- From every session alike, the work ends with one result, as allowed, and
leaves a session that has grown. -/
def Settles (allowed : Failure → Prop) (act : Work α) (session : Session)
    (Q : α → Prop := fun _ => True) : Prop :=
  ∃ r, Meets Q allowed r ∧ ∀ started, session.Alike started →
    ∃ ended, started.Grows ended ∧ act started = some (r, ended)

variable {session : Session} {act : Work α} {f : α → Work β}
  {failure : Failure} {allowed : Failure → Prop} {P Q : α → Prop}

theorem settles_pure {a : α} (h : Q a) : Settles allowed (pure a) session Q :=
  ⟨.ok a, h, fun started _ => ⟨started, .refl started, rfl⟩⟩

theorem settles_throw (h : allowed failure) : Settles allowed (throw failure : Work α) session Q :=
  ⟨.error failure, h, fun started _ => ⟨started, .refl started, rfl⟩⟩

theorem settles_modify {g : Session → Session} (hg : ∀ s : Session, s.Grows (g s)) :
    Settles allowed (modify g : Work PUnit) session :=
  ⟨.ok ⟨⟩, trivial, fun started _ => ⟨g started, hg started, rfl⟩⟩

theorem Settles.bind {Q : β → Prop} (h : Settles allowed act session P)
    (hf : ∀ a, P a → Settles allowed (f a) session Q) : Settles allowed (act >>= f) session Q := by
  obtain ⟨r, hmeets, hact⟩ := h
  cases r with
  | error failure =>
    refine ⟨.error failure, hmeets, fun started hs => ?_⟩
    obtain ⟨ended, hgrows, hrun⟩ := hact started hs
    exact ⟨ended, hgrows, by rw [bind_run, hrun]⟩
  | ok a =>
    obtain ⟨r, hmeets, hnext⟩ := hf a hmeets
    refine ⟨r, hmeets, fun started hs => ?_⟩
    obtain ⟨between, hgrows, hrun⟩ := hact started hs
    obtain ⟨ended, hgrows', hrun'⟩ := hnext between (hs.trans hgrows.alike)
    exact ⟨ended, hgrows.trans hgrows', by rw [bind_run, hrun]; exact hrun'⟩

/-- What is read must not depend on what was recorded. -/
theorem Settles.get {g : Session → Work α} (h : Settles allowed (g session) session Q)
    (hg : ∀ t, session.Alike t → g t = g session) : Settles allowed (get >>= g) session Q := by
  obtain ⟨r, hmeets, hact⟩ := h
  refine ⟨r, hmeets, fun started hs => ?_⟩
  obtain ⟨ended, hgrows, hrun⟩ := hact started hs
  refine ⟨ended, hgrows, ?_⟩
  change g started started = _
  rw [hg started hs, hrun]

/-- A run is marked as over, however it ends. -/
theorem Settles.whileActive (h : Settles allowed act session.enter Q) :
    Settles allowed (whileActive act) session Q := by
  obtain ⟨r, hmeets, hact⟩ := h
  refine ⟨r, hmeets, fun started hs => ?_⟩
  obtain ⟨ended, hgrows, hrun⟩ := hact started.enter hs.enter
  exact ⟨ended.leave, hgrows.leave, by rw [Compile.whileActive, hrun]⟩

theorem Settles.mono {allowed' : Failure → Prop} (h : Settles allowed act session Q)
    (hQ : ∀ a, Q a → P a) (himp : ∀ failure, allowed failure → allowed' failure) :
    Settles allowed' act session P := by
  obtain ⟨r, hmeets, hact⟩ := h
  refine ⟨r, ?_, hact⟩
  cases r with
  | ok a => exact hQ a hmeets
  | error failure => exact himp failure hmeets

theorem settles_log (text : String) : Settles allowed (log text) session :=
  settles_modify fun _ => ⟨⟨rfl, rfl, rfl⟩, prefix_rfl⟩

theorem settles_record (event : Event) : Settles allowed (record event) session :=
  settles_modify fun _ => ⟨⟨rfl, rfl, rfl⟩, prefix_append _ _⟩

theorem settles_recordIf (records : Chain → Bool) (event : Event) :
    Settles allowed (recordIf records event) session := by
  refine Settles.get ?_ fun t ht => by rw [ht.chain]
  split
  · exact settles_record event
  · exact settles_pure trivial

theorem settles_logPhase (phase unit : String) : Settles allowed (logPhase phase unit) session := by
  refine Settles.get ?_ fun t ht => by rw [ht.options]
  split
  · exact settles_log _
  · exact settles_pure trivial

/-- Writing does not touch the session. -/
theorem settles_write (hallowed : ∀ fault, allowed (.ofEmit fault)) (act : Emit.Write String) :
    Settles allowed (write act) session := by
  refine Settles.get ?_ fun t ht => by rw [ht.options]
  dsimp only
  split
  · exact settles_pure trivial
  · exact settles_throw (hallowed _)

/-! ## Lowering -/

section Lowering

variable {s : TempSupply} {code : Expr} {assignee : Option Expr}

def LowerSettles (allowed : Failure → Prop) (act : LowerM α) (session : Session) (s : TempSupply)
    (Q : α → TempSupply → Prop) : Prop :=
  Settles allowed (act.run s) session fun r => Q r.1 r.2

theorem lowerSettles_pure {a : α} {Q : α → TempSupply → Prop} (h : Q a s) :
    LowerSettles allowed (pure a) session s Q := settles_pure h

theorem LowerSettles.bind {act : LowerM α} {f : α → LowerM β} {P : α → TempSupply → Prop}
    {Q : β → TempSupply → Prop} (h : LowerSettles allowed act session s P)
    (hf : ∀ a s', P a s' → LowerSettles allowed (f a) session s' Q) :
    LowerSettles allowed (act >>= f) session s Q :=
  Settles.bind h fun r => hf r.1 r.2

theorem LowerSettles.after {f : α → LowerM β} {Q : β → TempSupply → Prop}
    (hf : ∀ a, LowerSettles allowed (f a) session s Q) (h : Settles allowed act session) :
    LowerSettles allowed (liftM act >>= f) session s Q :=
  LowerSettles.bind (P := fun _ s' => s' = s) (h.bind fun _ _ => settles_pure rfl)
    fun a _ hs => hs ▸ hf a

theorem LowerSettles.get {g : Session → LowerM α} {Q : α → TempSupply → Prop}
    (h : LowerSettles allowed (g session) session s Q)
    (hg : ∀ t, session.Alike t → g t = g session) :
    LowerSettles allowed (getThe Session >>= g) session s Q := by
  obtain ⟨r, hmeets, hact⟩ := h
  refine ⟨r, hmeets, fun started hs => ?_⟩
  obtain ⟨ended, hgrows, hrun⟩ := hact started hs
  refine ⟨ended, hgrows, ?_⟩
  change (g started).run s started = _
  rw [hg started hs, hrun]

def normalized (code : Expr) (assignee : Option Expr) : Normalize.Norm Expr :=
  match code, assignee with
  | .function .., none => Normalize.normalizeFunction code
  | _, _ => Normalize.normalize code assignee

def Checked (allowed : Failure → Prop) (e : Expr) : Prop :=
  ∀ violation, (normalStatements e).bind (Expr.violation .statement) = some violation →
    allowed (.notNormal violation)

/-- Normalization gives a tree that has `Q`, or fails, and fails, like its
check, only as allowed. -/
def Accepts (allowed : Failure → Prop) (act : Normalize.Norm Expr) (s : TempSupply)
    (Q : Expr → TempSupply → Prop) : Prop :=
  match act s with
  | .ok e s' => Q e s' ∧ Checked allowed e
  | .error fault _ => allowed (.ofNormalize fault)

/-- Lowering normalizes the tree, folded or not. -/
theorem lowerSettles_lowerCode {Q : Expr → TempSupply → Prop}
    (h : ∀ tree, tree = code ∨ tree = Nulls.folded session.admits code →
      Accepts allowed (normalized tree assignee) s Q) :
    LowerSettles allowed (lowerCode code assignee) session s Q := by
  refine LowerSettles.get ?_ fun t ht => by rw [ht.options, ht.admits]
  have hnorm : LowerSettles allowed (liftNorm (normalized (if session.options.foldNulls then
      Nulls.folded session.admits code else code) assignee)) session s fun e s' =>
        Q e s' ∧ Checked allowed e := by
    have hact := h (if session.options.foldNulls then Nulls.folded session.admits code else code)
      (by split <;> simp)
    change Settles allowed (liftNorm _ s) session _
    unfold Accepts at hact
    unfold liftNorm
    split
    · rename_i hr
      rw [hr] at hact
      exact settles_pure hact
    · rename_i hr
      rw [hr] at hact
      exact settles_throw hact
  refine hnorm.bind fun lowered s' hl => ?_
  -- what follows the log is the same with and without it
  extract_lets done check
  have hcheck (u : Unit) : LowerSettles allowed (check u) session s' Q := by
    dsimp only [check, done]
    split
    · split
      · rename_i hv
        exact settles_throw (hl.2 _ hv)
      · exact lowerSettles_pure hl.1
    · exact lowerSettles_pure hl.1
  split
  · exact LowerSettles.after hcheck (settles_log _)
  · exact hcheck ()

end Lowering

/-- While members that are `Given` are lowered, `F` holds of those that are
done and of the supply. -/
structure Course (allowed : Failure → Prop) (session : Session) (Given : Member → Prop)
    (F : List Member → TempSupply → Prop) : Prop where
  given {done ms : List Member} {s : TempSupply} : F done s → (∀ m ∈ ms, Given m) → F (done ++ ms) s
  code {done : List Member} {s : TempSupply} {m : Member} {code : Expr} {place : Option Expr} :
    F done s → Given m → m.code = some code →
    (∀ p ∈ place, ∃ owner isStatic, p = memberPlace owner isStatic m) →
    ∀ tree, tree = code ∨ tree = Nulls.folded session.admits code →
      Accepts allowed (normalized tree place) s fun e s' =>
        F (done ++ [{ m with lowered := some e }]) s'

namespace Course

variable {Given : Member → Prop} {F : List Member → TempSupply → Prop} {s : TempSupply}
  {done : List Member} (h : Course allowed session Given F)

include h

theorem lowerMember {m : Member} {place : Option Expr} (hF : F done s) (hm : Given m)
    (hp : ∀ p ∈ place, ∃ owner isStatic, p = memberPlace owner isStatic m) :
    LowerSettles allowed (lowerMember place m) session s fun m s' => F (done ++ [m]) s' := by
  unfold Compile.lowerMember
  split
  · exact lowerSettles_pure (h.given hF (forall_mem_singleton.2 hm))
  · rename_i code hcode
    refine LowerSettles.after (fun _ => ?_) (settles_logPhase _ _)
    exact (lowerSettles_lowerCode (h.code hF hm hcode hp)).bind fun _ _ hF => lowerSettles_pure hF

/-- By induction on the members that are left. -/
theorem lowerMembers {owner : TypePath} {isStatic : Bool} : ∀ {ms done : List Member}
    {s : TempSupply}, F done s → (∀ m ∈ ms, Given m) →
      LowerSettles allowed (lowerMembers owner isStatic ms) session s fun ms s' => F (done ++ ms) s'
  | [], _, _, hF, hms => lowerSettles_pure (h.given hF hms)
  | m :: rest, done, _, hF, hms => by
    rw [forall_mem_cons] at hms
    refine (h.lowerMember hF hms.1 fun p hp => ?_).bind fun m' s' hm =>
      (lowerMembers hm hms.2).bind fun rest' s'' hrest => lowerSettles_pure ?_
    · split at hp
      · exact ⟨_, _, (Option.some.inj hp).symm⟩
      · exact nomatch hp
    · rwa [append_assoc] at hrest

theorem lowerClass {decl : ClassDecl} (hF : F [] s) (hms : ∀ m ∈ decl.members, Given m) :
    LowerSettles allowed (lowerClass decl) session s fun decl s' => F decl.members s' := by
  have hsame : F ([] ++ decl.members) s := h.given hF hms
  simp only [ClassDecl.members, forall_mem_append] at hms
  have hctor : LowerSettles allowed (lowerCtor decl.ctor) session s fun m s' => F m.toList s' := by
    cases hc : decl.ctor with
    | none => exact lowerSettles_pure hF
    | some m =>
      rw [hc] at hms
      have hnone : ∀ p ∈ none, ∃ owner isStatic, p = memberPlace owner isStatic m := nofun
      exact (h.lowerMember hF (hms.1 m (.head _)) hnone).bind fun _ _ hF => lowerSettles_pure hF
  unfold Compile.lowerClass
  split
  · exact lowerSettles_pure hsame
  · refine hctor.bind fun _ _ hF => (h.lowerMembers hF hms.2.1).bind fun _ _ hF =>
      (h.lowerMembers hF hms.2.2).bind fun _ _ hF => lowerSettles_pure ?_
    rwa [append_assoc] at hF

theorem lowerDecl {decl : Decl} (hF : F [] s) (hms : ∀ m ∈ decl.members, Given m) :
    LowerSettles allowed (lowerDecl decl) session s fun decl s' => F decl.members s' := by
  unfold Compile.lowerDecl
  split
  · exact (h.lowerClass hF hms).bind fun _ _ hF => lowerSettles_pure hF
  · exact (h.lowerClass hF hms).bind fun _ _ hF => lowerSettles_pure hF
  · exact lowerSettles_pure (h.given hF hms : F ([] ++ _) s)

end Course

theorem LowerSettles.unitCode {act : LowerM α} {Q : α → TempSupply → Prop}
    (h : LowerSettles allowed act session TempSupply.all Q)
    (hallowed : ∀ fault, allowed (.ofEmit fault)) {unit : String} {code : α → Emit.Write String} :
    Settles allowed (unitCode unit act code) session :=
  Settles.bind h fun _ _ => (settles_logPhase _ _).bind fun _ _ =>
    (settles_write hallowed _).bind fun _ _ => (settles_logPhase _ _).bind fun _ _ =>
      settles_pure trivial

def Reported (failure : Failure) : Prop := ∀ message, failure ≠ .foreign message

theorem reported_ofEmit (fault : Emit.Fault) : Reported (.ofEmit fault) := by
  intro message h
  cases fault <;> exact nomatch h

/-- Whatever normalization does is reported. -/
theorem accepts_reported (act : Normalize.Norm Expr) (s : TempSupply) :
    Accepts Reported act s fun _ _ => True := by
  unfold Accepts
  split
  · exact ⟨trivial, fun _ _ _ h => nomatch h⟩
  · exact fun _ h => nomatch h

/-- The code of a declaration, up to its hooks. -/
theorem settles_declCode (decl : Decl) :
    Settles Reported (unitCode decl.path.dotted (lowerDecl decl) Emit.declaration) session := by
  have hcourse : Course Reported session (fun _ => True) fun _ _ => True :=
    ⟨fun _ _ => trivial, fun _ _ _ _ _ _ => accepts_reported _ _⟩
  exact (hcourse.lowerDecl trivial fun _ _ => trivial).unitCode reported_ofEmit

def nullsOf (session : Session) (violations : Nullability → List Nulls.Violation) :
    List Diagnostic :=
  if session.options.checkNulls then
    (violations session.admits).map (Nulls.Violation.diagnostic session.options.nullSeverity)
  else []

theorem settles_nullPhase (unit : String) (violations : Nullability → List Nulls.Violation) :
    Settles allowed (nullPhase unit violations) session (· = nullsOf session violations) := by
  refine Settles.get ?_ fun t ht => by rw [ht.options]
  unfold nullsOf
  split
  · refine (settles_logPhase _ unit).bind fun _ _ => Settles.get (settles_pure rfl) fun t ht => ?_
    rw [ht.options, ht.admits]
  · exact settles_pure rfl

theorem settles_declNulls (decl : Decl) : Settles allowed (declNulls decl) session
    (· = nullsOf session (Nulls.declViolations · decl)) := by
  refine Settles.get ?_ fun t ht => by rw [ht.options]
  split
  · exact (settles_log _).bind fun _ _ => settles_nullPhase _ _
  · exact settles_nullPhase _ _

end Compile

end LuaBackend
