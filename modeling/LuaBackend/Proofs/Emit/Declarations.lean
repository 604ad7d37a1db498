import LuaBackend.Emit.Decl
import LuaBackend.Proofs.Emit.Context

/-!
# The context after a declaration

Writing a tree changes nothing in a context but the counter of labels. A
declaration also sets what is current, the superclass, and a mark around
the body of a constructor. The mark is cleared after the body only, so it
stays set if writing the body fails, and a later `super()` is then
accepted outside of a constructor.
-/

namespace LuaBackend.Emit

variable {α β : Type} {act : Write α} {context : Context}
variable {F : Prop}

def Counts (act : Write α) : Prop :=
  ∀ context, ∃ n, left (act context) = { context with nextLabel := n }

theorem counts_pure (a : α) : Counts (pure a) := fun context => ⟨context.nextLabel, rfl⟩

theorem counts_throw (fault : Fault) : Counts (throwThe Fault fault : Write α) :=
  fun context => ⟨context.nextLabel, rfl⟩

/-- What is written in a scope changes nothing else. -/
theorem counts_act (x : EmitM α) : Counts x.act := by
  intro context
  rw [x.act_apply]
  exact ⟨_, left_inContext x context⟩

theorem Counts.bind {f : α → Write β} (h : Counts act) (hf : ∀ a, Counts (f a)) :
    Counts (act >>= f) := by
  intro context
  obtain ⟨n, hn⟩ := h context
  cases hact : act context with
  | error =>
    rw [hact] at hn
    exact ⟨n, run_bind_error hact ▸ hn⟩
  | ok a c =>
    rw [hact] at hn
    obtain rfl : c = { context with nextLabel := n } := hn
    rw [run_bind_ok hact]
    exact hf a _

theorem Counts.map {f : α → β} (h : Counts act) : Counts (act >>= fun a => pure (f a)) :=
  h.bind fun _ => counts_pure _

theorem counts_methodCode (m : Member) : Counts (methodCode m) := by
  unfold methodCode
  split
  · exact counts_pure _
  · exact counts_throw _

theorem counts_methodFunction (first : List String) (m : Member) :
    Counts (methodFunction first m) := (counts_methodCode m).bind fun _ => counts_act _

theorem counts_initializer (owner : String) (m : Member) : Counts (initializer owner m) := by
  unfold initializer
  split
  · split
    · exact counts_act _
    · exact counts_act _
    · exact counts_act _
  · split
    · exact counts_pure _
    · exact (counts_act _).map

/-- Members are written one after the other. -/
theorem counts_forMembers {act : Member → Write Lua.Block} (h : ∀ m, Counts (act m)) :
    ∀ members, Counts (forMembers act members)
  | [] => counts_pure _
  | m :: rest => (h m).bind fun _ => (counts_forMembers h rest).map

theorem counts_staticMembers (name : String) (statics : List Member) :
    Counts (staticMembers name statics) := by
  refine counts_forMembers (fun m => ?_) _
  split
  · exact (counts_methodFunction _ _).map
  · split
    · exact counts_initializer _ _
    · exact counts_pure _

/-! ## Bodies of constructors -/

/-- Only the counter changes, unless `F` holds: then the run fails and
leaves the mark of constructors. -/
inductive Marks (F : Prop) (context : Context) : EStateM.Result Fault Context α → Prop
  | kept {r n} : ¬ F → left r = { context with nextLabel := n } → Marks F context r
  | marked {r fault n} : F → r = .error fault
      { context with nextLabel := n, scope := { context.scope with inCtor := true } } →
      Marks F context r

theorem Counts.marks (h : Counts act) (hF : ¬ F) : Marks F context (act context) := by
  obtain ⟨n, hn⟩ := h context
  exact .kept hF hn

theorem Marks.iff {G : Prop} {r : EStateM.Result Fault Context α} (h : Marks F context r)
    (hFG : F ↔ G) : Marks G context r := propext hFG ▸ h

/-- What follows is written only where there is no mark. -/
theorem Marks.bind {f : α → Write β} (h : Marks F context (act context)) (hf : ∀ a, Counts (f a)) :
    Marks F context ((act >>= f) context) := by
  cases hact : act context with
  | error =>
    rw [hact] at h
    rw [run_bind_error hact]
    cases h with
    | kept hF hn => exact .kept hF hn
    | marked hF hr =>
      cases hr
      exact .marked hF rfl
  | ok a c =>
    rw [hact] at h
    cases h with
    | kept hF hn =>
      obtain rfl : c = _ := hn
      obtain ⟨n', hn'⟩ := hf a { context with nextLabel := _ }
      rw [run_bind_ok hact]
      exact .kept hF hn'
    | marked hF hr => cases hr

/-- A mark may be set by what is written last. -/
theorem Counts.marks_bind {f : α → Write β} {F : α → Context → Prop} (h : Counts act)
    (hf : ∀ a c, act context = .ok a c → Marks (F a c) c (f a c)) :
    Marks (∃ a c, act context = .ok a c ∧ F a c) context ((act >>= f) context) := by
  obtain ⟨n, hn⟩ := h context
  cases hact : act context with
  | error =>
    rw [hact] at hn
    rw [run_bind_error hact]
    exact .kept (by rintro ⟨_, _, h, -⟩; cases h) hn
  | ok a c =>
    rw [hact] at hn
    rw [run_bind_ok hact]
    have hiff : F a c ↔
        ∃ a' c', (.ok a c : EStateM.Result Fault Context α) = .ok a' c' ∧ F a' c' := by
      constructor
      · exact fun h => ⟨a, c, rfl, h⟩
      · rintro ⟨_, _, h, hF⟩
        cases h
        exact hF
    obtain rfl : c = { context with nextLabel := n } := hn
    refine Marks.iff ?_ hiff
    cases hf a _ hact with
    | kept hF hn => exact .kept hF hn
    | marked hF hr => exact .marked hF hr

/-- A level that is entered is left on every path. -/
theorem Marks.deeper (h : Marks F context.deepen (act context.deepen)) :
    Marks F context (deeper act context) := by
  unfold Emit.deeper guarded
  cases hact : act context.deepen with
  | ok a c =>
    rw [hact] at h
    cases h with
    | kept hF hn =>
      obtain rfl : c = _ := hn
      exact .kept hF rfl
    | marked hF hr => cases hr
  | error fault c =>
    rw [hact] at h
    cases h with
    | kept hF hn =>
      obtain rfl : c = _ := hn
      exact .kept hF rfl
    | marked hF hr =>
      cases hr
      exact .marked hF rfl

/-- The body of a constructor is marked while it is written. -/
theorem marks_inConstructor (hcounts : Counts act) (h : context.scope.inCtor = false) :
    Marks (∃ fault c, act { context with scope.inCtor := true } = .error fault c)
      context (inConstructor act context) := by
  have hrun : inConstructor act context = (act >>= fun a => do
      modify fun context => { context with scope.inCtor := false }
      return a : Write α) { context with scope.inCtor := true } := rfl
  obtain ⟨n, hn⟩ := hcounts { context with scope.inCtor := true }
  rw [hrun]
  cases hact : act { context with scope.inCtor := true } with
  | error fault c =>
    rw [hact] at hn
    obtain rfl : c = _ := hn
    rw [run_bind_error hact]
    exact .marked ⟨fault, _, rfl⟩ rfl
  | ok a c =>
    rw [hact] at hn
    obtain rfl : c = _ := hn
    rw [run_bind_ok hact]
    refine .kept (n := n) (by rintro ⟨_, _, h⟩; cases h) ?_
    change { context with nextLabel := n, scope.inCtor := false } = _
    rw [← h]

section Class

def ctorCode? (cls : ClassDecl) : Option (List (Param Expr) × Option Expr) :=
  match cls.ctor.bind fun m => m.lowered <|> m.code with
  | some (.function _ _ params _ body) => some (params, body)
  | _ => none

def BodyFails (cls : ClassDecl) (params : List (Param Expr)) (body : Expr) (context : Context) :
    Prop :=
  ∃ defaults c, (Emission.defaults (emitParams params)).act context = .ok defaults c ∧
    ∃ vars c', forMembers (initializer "self") (cls.fields.filter Member.isInitialized) c =
      .ok vars c' ∧
      ∃ fault c'', ((emit body).body false).act { c' with scope.inCtor := true } =
        .error fault c''

def CtorFails (cls : ClassDecl) (context : Context) : Prop :=
  ∃ params body, ctorCode? cls = some (params, some body) ∧
    BodyFails cls params body context.deepen

variable {cls : ClassDecl}

theorem Counts.scope_eq (h : Counts act) {a : α} {c : Context} (hact : act context = .ok a c) :
    c.scope = context.scope := by
  obtain ⟨n, hn⟩ := h context
  rw [hact] at hn
  obtain rfl : c = _ := hn
  rfl

/-- The mark is set for the body of a constructor only. -/
theorem marks_initialization {ctor : Option (List (Param Expr) × Option Expr)}
    (h : context.scope.inCtor = false) :
    Marks (∃ params body, ctor = some (params, some body) ∧ BodyFails cls params body context)
      context (initialization cls ctor context) := by
  have hvars : Counts (forMembers (initializer "self") (cls.fields.filter Member.isInitialized)) :=
    counts_forMembers (counts_initializer "self") _
  rcases ctor with _ | ⟨params, _ | body⟩
  · refine Counts.marks (hvars.bind fun _ => ?_) (by rintro ⟨_, _, h, -⟩; cases h)
    dsimp only
    split
    · exact fun context => ⟨context.nextLabel, rfl⟩
    · exact counts_pure _
  · refine Counts.marks ((counts_act _).bind fun _ => hvars.map) ?_
    rintro ⟨_, _, h, -⟩
    cases h
  · have hbody : Marks (BodyFails cls params body context) context
        (initialization cls (some (params, some body)) context) := by
      refine (counts_act _).marks_bind fun defaults c hdefaults =>
        hvars.marks_bind fun vars c' hvars' =>
          (marks_inConstructor (counts_act _) ?_).bind fun _ => counts_pure _
      rw [hvars.scope_eq hvars', (counts_act _).scope_eq hdefaults, h]
    refine hbody.iff ⟨fun h => ⟨params, body, rfl, h⟩, ?_⟩
    rintro ⟨_, _, hctor, h⟩
    cases hctor
    exact h

theorem marks_constructors (h : context.scope.inCtor = false) :
    Marks (CtorFails cls context) context (constructors cls context) := by
  have hinit (ctor) : Marks (∃ params body, ctor = some (params, some body) ∧
      BodyFails cls params body context.deepen) context
        (deeper (initialization cls ctor) context) := by
    have hdeepen : context.deepen.scope.inCtor = false := h
    exact (marks_initialization hdeepen).deeper
  unfold constructors CtorFails ctorCode?
  cases hctor : cls.ctor with
  | none =>
    dsimp only [Option.bind_none]
    change Marks _ context ((ite _ _ _ : Write _) context)
    split
    · exact (counts_pure _).marks (by rintro ⟨_, _, h, -⟩; cases h)
    · exact (hinit none).bind fun _ => counts_pure _
  | some m =>
    dsimp only [Option.bind_some, methodCode]
    cases (m.lowered <|> m.code) with
    | none => exact (counts_throw _).marks (by rintro ⟨_, _, h, -⟩; cases h)
    | some e =>
      cases e with
      | function => exact (hinit _).bind fun _ => counts_pure _
      | _ => exact (counts_throw _).marks (by rintro ⟨_, _, h, -⟩; cases h)

end Class

/-! ## Declarations -/

def Context.opened (context : Context) (current : TypePath) (base : String) : Context :=
  { context with current, scope := { context.scope with base, inCtor := false } }

def FailsInCtor : Decl → Context → Prop
  | .cls cls, context => (cls.isExternal || cls.isInterface) = false ∧
    CtorFails cls (context.opened cls.path ((cls.base.map TypePath.global).getD ""))
  | _, _ => False

theorem marks_classBlock (cls : ClassDecl) (context : Context) :
    ∃ base, Marks (FailsInCtor (.cls cls) context) (context.opened cls.path base)
      (classBlock cls (context.opened cls.path "")) := by
  unfold classBlock
  cases hexternal : cls.isExternal with
  | true =>
    refine ⟨"", (counts_pure _).marks fun h => ?_⟩
    rw [FailsInCtor, hexternal] at h
    exact absurd h.1.symm Bool.false_ne_true
  | false =>
    refine ⟨(cls.base.map TypePath.global).getD "", ?_⟩
    cases hinterface : cls.isInterface with
    | true =>
      refine (counts_pure _).marks fun h => ?_
      rw [FailsInCtor, hinterface, Bool.or_true] at h
      exact absurd h.1.symm Bool.false_ne_true
    | false =>
      have hctors (base : String) := @marks_constructors (context.opened cls.path base) cls rfl
      refine ((hctors _).bind fun _ => (counts_forMembers (fun _ => (counts_methodFunction _
        _).map) _).bind fun _ =>
        (counts_staticMembers _ _).map).iff ⟨fun h => ⟨?_, h⟩, And.right⟩
      rw [hexternal, hinterface]
      rfl

/-- Any declaration: only a class has a constructor. -/
theorem marks_declBlock (decl : Decl) (context : Context) :
    ∃ current base, Marks (FailsInCtor decl context) (context.opened current base)
      (declBlock decl context) := by
  cases decl with
  | cls cls => exact ⟨_, marks_classBlock cls context⟩
  | enum | typedef => exact ⟨_, _, (counts_pure _).marks id⟩
  | abstract path loc underlying impl =>
    cases impl with
    | none => exact ⟨_, _, (counts_pure _).marks id⟩
    | some impl => exact ⟨impl.path, "", (counts_staticMembers _ _).map.marks id⟩

def superCall : Expr := .call {} .void (.const {} .dynamic .super) []

/-- Outside of constructors, and only there, it is refused for that reason. -/
theorem outcome_superCall_iff (context : Context) :
    outcome (expression superCall context) = .error (.unsupported .superCallOutsideCtor {}) ↔
      context.scope.inCtor = false := by
  obtain ⟨current, ⟨base, inCtor, control⟩, layout, n⟩ := context
  cases inCtor with
  | false => exact ⟨fun _ => rfl, fun _ => rfl⟩
  | true =>
    refine ⟨fun h => ?_, fun h => absurd h.symm Bool.false_ne_true⟩
    have hcall : valueOf superCall ⟨base, true, control⟩ n = (if base.isEmpty then
        unsupported .superCallWithoutBase {}
      else do return .callWithSelf (.name (base ++ ".super")) (← Emission.values []) : EmitM _)
        ⟨base, true, control⟩ n := rfl
    rw [expression_eq] at h
    by_cases hbase : base.isEmpty = true
    · rw [if_pos hbase] at hcall
      rw [run_bind_error (inContext_of_error hcall)] at h
      cases h
    · rw [if_neg hbase] at hcall
      rw [run_bind_ok (inContext_of_ok hcall)] at h
      cases h

/-- **A declaration leaves the context as it should be, unless writing the
body of a constructor fails.** On every path the layout and the stack of
control are as before, and a later declaration has the same outcome as in
a context that was never written in. The mark of constructors stays
exactly if the body of a constructor is written and fails; and exactly
then there is a tree that has another outcome later. -/
theorem declaration_resets_iff (decl : Decl) (context : Context) :
    let c := left (declaration decl context)
    let fresh := { context.opened c.current c.scope.base with nextLabel := c.nextLabel }
    (c.layout = context.layout ∧ c.scope.control = context.scope.control) ∧
    (c.scope.inCtor = true ↔ FailsInCtor decl context) ∧
    (∀ later, outcome (declaration later c) = outcome (declaration later fresh)) ∧
    ((∀ e, outcome (expression e c) = outcome (expression e fresh) ∧
      outcome (statements e c) = outcome (statements e fresh)) ↔ ¬ FailsInCtor decl context) := by
  have hblock : left (declaration decl context) = left (declBlock decl context) :=
    left_bind_text _ _ context
  obtain ⟨current, base, h⟩ := marks_declBlock decl context
  dsimp only
  rw [hblock]
  cases h with
  | kept hF hn =>
    rw [hn]
    exact ⟨⟨rfl, rfl⟩, ⟨fun h => absurd h Bool.false_ne_true, fun h => absurd h hF⟩, fun _ => rfl,
      fun _ => hF, fun _ _ => ⟨rfl, rfl⟩⟩
  | marked hF hr =>
    rw [hr]
    refine ⟨⟨rfl, rfl⟩, ⟨fun _ => hF, fun _ => rfl⟩, fun _ => rfl, fun h => ?_,
      fun h => absurd hF h⟩
    have hmark := (outcome_superCall_iff _).1 ((h superCall).1.trans ((outcome_superCall_iff _).2
      rfl))
    cases hmark

/-- `class A extends B { function new() break; }`. -/
def breakingClass : Decl :=
  let body : Expr := .function {} .dynamic [] .void (some (.brk {}))
  .cls { path := ⟨[], "A"⟩, base := some ⟨[], "B"⟩, ctor := some ⟨"new", .method, .dynamic, body,
    none, {}, none⟩ }

/-- A break outside of all loops fails the constructor, and `super()` is
accepted afterwards as if it stood in one. -/
theorem declaration_keeps_mark :
    let c := left (declaration breakingClass {})
    c.scope.inCtor = true ∧ outcome (expression superCall c) = .ok "B.super(self)" ∧
      outcome (expression superCall { c with scope := { c.scope with inCtor := false } }) =
        .error (.unsupported .superCallOutsideCtor {}) :=
  ⟨rfl, rfl, rfl⟩

end LuaBackend.Emit
