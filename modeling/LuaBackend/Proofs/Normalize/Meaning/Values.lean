import LuaBackend.Proofs.Normalize.Meaning.Operands

/-!
# Values that keep their meaning

A lowering simulates a computation if its value realizes it, and its
statements do what it does. Statements may have an aim, a local in which
they leave the value. If the node does not yield a value wherever it ends,
the aim has to be null at first.
-/

namespace LuaBackend.Normalize.Meaning

open Simulation Lowering List Exec

variable {M : Machine} {S : Setting M} {m : Exec M M.Value} {aim : Option Var}
variable {v : Var} {e : Expr} {Γ : Scope}
variable {yields : Bool} {C : UInt32 → Prop} {f : Expr → Expr}
variable {I : Known M} {R : UInt32 → Prop} {a : M.Value} {loc : Loc} {d : Bool} {σ τ : State M}
variable {k : M.Value → Exec M M.Value}

theorem forall_mem_some {P : Var → Prop} : (∀ w ∈ some v, P w) ↔ P v := by simp

def apart (Γ : Scope) : Option Var → Scope
  | none => Γ
  | some v => Γ.without v.id

def Setting.Spares (S : Setting M) (R : UInt32 → Prop) (aim : Option Var) (y : UInt32) : Prop :=
  S.Keeps R y ∧ ∀ v ∈ aim, y ≠ v.id

/-- Either a value is stored wherever the statements end, or the aim is null
and not written otherwise. -/
def Ready (S : Setting M) (yields : Bool) (aim : Option Var) (l : UInt32 → M.Value) : Prop :=
  ∀ v ∈ aim, yields = true ∨ (S.written v.id = false ∧ l v.id = M.null)

/-- The aim holds what the source ended with; the states match apart from it. -/
def Reached (Γ : Scope) (I : Known M) (aim : Option Var) (a : M.Value) (_ : Unit)
    (σ τ : State M) : Prop := (∀ v ∈ aim, τ.locals v.id = a) ∧ Match (apart Γ aim) I σ τ

/-- What is known while statements run that use up the temporaries in `R`:
`I` to the end, and `K` until the aim is stored into. -/
structure Carries (S : Setting M) (yields : Bool) (aim : Option Var) (R : UInt32 → Prop)
    (I K : Known M) : Prop where
  admits : S.Admits I
  rests : Rests I (S.Spares R aim)
  before_rests : Rests K (S.Keeps R)
  before_le : ∀ l, K l → I l
  ready : ∀ l, K l → Ready S yields aim l

/-- The statements do what the computation does, and then `Γ` is in
scope. -/
def Performs (S : Setting M) (Γ : Scope) (yields : Bool) (aim : Option Var) (R : UInt32 → Prop)
    (stmts : List Expr) (m : Exec M M.Value) : Prop :=
  ∀ I K, Carries S yields aim R I K → ∀ σ τ, Match S.scope K σ τ →
    Agree (m σ) (run M S.rounds stmts) τ (Reached Γ I aim) (Match S.scope K)

def Runs (S : Setting M) (Γ : Scope) (yields : Bool) (aim : Option Var) (x : Norm (List Expr))
    (m : Exec M M.Value) : Prop :=
  ∀ s, S.first ≤ s.next → (∀ v ∈ aim, v.id.toNat < s.next) → Gives x s fun stmts s' =>
    s.next ≤ s'.next ∧ Performs S Γ yields aim (Range s.next s'.next) stmts m

/-- The lowering does what the computation does. -/
structure Simulates (S : Setting M) (l : Lowering) (m : Exec M M.Value) : Prop where
  value : l.source.valued = true → Takes S l.source.designates l.value m
  stmt : ∀ loc aim, Runs S (S.scope.after l.source) l.source.yields aim
    (l.stmt (aim.map (.local loc))) m
  body : ∀ loc aim, Runs S (S.scope.after l.source) l.source.yields aim
    (l.body (aim.map (.local loc))) m

section Dropping

variable {x : Norm Hoisted} {designates : Bool} {loc loc' : Loc}

theorem apart_le {y : UInt32} (h : apart Γ aim y = true) : Γ y = true := by
  cases aim with
  | none => exact h
  | some => exact (Bool.and_eq_true_iff.1 h).2

theorem match_apart (hm : Match Γ I σ τ) :
    Match (apart Γ aim) I σ τ := hm.scope_mono fun _ => apart_le

theorem Carries.before_admits {K : Known M} (h : Carries S yields aim R I K) :
    S.Admits K := fun l hl => h.admits l (h.before_le l hl)

/-- An invariant is carried past what it does not look at. -/
theorem rests_spares (hI : Rests I C) (hC : ∀ y, C y → S.Keeps R y) (hv : ¬ C v.id) :
    Rests I (S.Spares R (some v)) := by
  refine hI.mono fun y hy => ⟨hC y hy, forall_mem_some.2 ?_⟩
  rintro rfl
  exact hv hy

/-- Until something is stored, the aim is known to hold a value. -/
theorem carries_holding (hg : S.Admits I) (hI : Rests I (S.Spares R (some v))) (hv : S.Keeps R v.id)
    (ha : yields = true ∨ a = M.null) :
    Carries S yields (some v) R I (fun l => I l ∧ l v.id = a) where
  admits := hg
  rests := hI
  before_rests := (hI.mono fun _ hy => hy.1).and (rests_local hv)
  before_le _ hl := hl.1
  ready _ hl := forall_mem_some.2 (ha.imp_right fun h => ⟨hv.2, hl.2.trans h⟩)

/-- The target stores what the source ended with. -/
theorem Reached.intro (hm : Match Γ I σ τ) (hI : Rests I C) (hv : ¬ C v.id) :
    Reached Γ I (some v) a () σ (τ.set v.id a) := by
  refine ⟨forall_mem_some.2 (State.locals_set_self τ v.id a), ?_⟩
  exact (match_apart hm).set_target hI (by simp [apart, Scope.without]) hv

/-- A value that is stored or dropped. -/
theorem Takes.runs (h : Takes S designates x m) (yields : Bool) :
    Runs S S.scope yields aim (storeOrDrop loc x (aim.map (.local loc'))) m := by
  intro s hs _
  refine (h s hs).bind fun k s' ⟨hle, hr, _, _⟩ => ?_
  cases aim with
  | none =>
    refine gives_pure ⟨hle, fun I K hc σ τ hm => ?_⟩
    have hrun := hr K hc.before_admits hc.before_rests σ τ hm
    by_cases hpure : k.value.isPure = true
    · rw [if_pos hpure]
      refine hrun.mono fun _ τ' ⟨hK, hreads⟩ => ?_
      obtain ⟨b, hb⟩ := eval_of_isPure τ' k.value hpure
      obtain ⟨a, σ', hσ, -, hm'⟩ := Steps.of_ok hreads hb
      exact ⟨a, σ', hσ, nofun, hm'.known_mono (hc.before_le _ hK)⟩
    · rw [if_neg hpure, run_append]
      refine hrun.bind fun _ τ' ⟨hK, hreads⟩ => ?_
      refine Steps.bind (hreads.agree hK) fun b τ'' hb => steps_of_ok rfl ?_
      obtain ⟨a, σ', hσ, -, hm'⟩ := hb
      exact ⟨a, σ', hσ, nofun, hm'.known_mono (hc.before_le _ hm'.known)⟩
  | some v =>
    refine gives_pure ⟨hle, fun I K hc σ τ hm => ?_⟩
    have hrun := hr K hc.before_admits hc.before_rests σ τ hm
    rw [run_append]
    refine hrun.bind fun _ τ' ⟨hK, hreads⟩ => ?_
    refine steps_assign (Steps.mono (hreads.agree hK) ?_)
    rintro b τ'' ⟨a, σ', hσ, rfl, hm'⟩
    have hmI : Match S.scope I σ' τ'' := hm'.known_mono (hc.before_le _ hm'.known)
    exact ⟨a, σ', hσ, .intro hmI hc.rests fun hy => hy.2 v rfl rfl⟩

end Dropping

theorem Simulates.of_takes {l : Lowering} (h : Takes S l.source.designates l.value m)
    (hstmt : l.stmt = storeOrDrop l.source.loc l.value)
    (hbody : l.body = storeOrDrop l.source.loc l.value)
    (hafter : S.scope.after l.source = S.scope) : Simulates S l m where
  value _ := h
  stmt _ _ := by rw [hstmt, hafter]; exact h.runs _
  body _ _ := by rw [hbody, hafter]; exact h.runs _

theorem Simulates.ofValue {x : Norm Hoisted} (h : Takes S e.designates x m)
    (hafter : S.scope.after e = S.scope) : Simulates S (.ofValue e x) m :=
  .of_takes h rfl rfl hafter

/-- A node that is lowered to itself. -/
theorem Simulates.leaf (h : Quiet S e m)
    (hstable : e.isStable = true → Fixed M S.rounds (Range tempBase.toNat S.first) e)
    (hafter : S.scope.after e = S.scope) : Simulates S (.leaf e) m := by
  refine .ofValue (fun s hs => gives_pure ⟨.refl, h.realizes rfl, fun hv => ?_, id⟩) hafter
  exact (hstable hv).mono fun y hy => hy.mono .refl hs

theorem Simulates.const (heval : eval M S.rounds e = pure a) (hafter : S.scope.after e = S.scope) :
    Simulates S (.leaf e) (pure a) := by
  refine .leaf (fun I _ σ τ hm => ?_) (fun _ l => ⟨a, fun τ _ => ?_⟩) hafter
  · rw [heval]
    exact reads_pure hm
  · rw [heval]
    rfl

theorem not_isTemp_of_lt (h : v.id.toNat < tempBase.toNat) : v.isTemp = false := by
  rw [Var.isTemp, decide_eq_false_iff_not, UInt32.le_iff_toNat_le]
  exact Nat.not_le.2 h

/-- A local in scope is read when it is evaluated. -/
theorem Simulates.localVar (hv : S.scope v.id = true) :
    Simulates S (.leaf (.local loc v)) (get v.id) := by
  refine .leaf (fun I _ σ τ hm => agree_get hm.self hv) (fun hs => ?_) rfl
  have hlow : v.isTemp = false := not_isTemp_of_lt (S.scope_low _ hv)
  exact nomatch hlow.symm.trans hs

/-- A temporary of which the value is given. -/
theorem Simulates.temp {t : Var} (ht : Range tempBase.toNat S.first t.id)
    (ha : ∀ l, S.given l → l t.id = a) :
    Simulates S (.leaf (.local loc t)) (pure a) := by
  refine .leaf (fun I hg σ τ hm => ?_) (fun _ => fixed_temp ht) rfl
  exact reads_of_ok rfl (eval_local (ha _ (hg _ hm.known))) hm

theorem Simulates.ident {type : Ty} {name : String} :
    Simulates S (.leaf (.ident loc type name)) (read (M.ident name)) :=
  .leaf (fun _ _ _ _ hm => reads_read _ hm) nofun rfl

section Around

variable {x : Norm Hoisted} {designates : Bool}

theorem Realizes.around {h : Hoisted} {k' : M.Value → Exec M M.Value} (hr : Realizes S R h m)
    (heval : eval M S.rounds e = (eval M S.rounds h.value >>= k'))
    (hk : ∀ I a σ τ, S.Admits I → Match S.scope I σ τ → Reads S (k a σ) (k' a) τ) :
    Realizes S R ⟨h.stmts, e⟩ (m >>= k) := by
  intro I hg hI σ τ hm
  refine (hr I hg hI σ τ hm).source_bind.mono fun _ τ' ⟨hI', hreads⟩ => ⟨hI', ?_⟩
  have hadmits : S.Admits (· = τ'.locals) := fun l hl => hg l (hl ▸ hI')
  dsimp only
  rw [heval]
  exact hreads.bind fun a σ' τ'' hm' => hk _ a σ' τ'' hadmits hm'

/-- A node that evaluates its part and writes no locals. -/
theorem Takes.around (h : Takes S designates x m)
    (heval : ∀ v, eval M S.rounds (f v) = (eval M S.rounds v >>= k))
    (hk : ∀ I a σ τ, Match S.scope I σ τ → Reads S (k a σ) (k a) τ)
    (hstable : ∀ v T, (f v).isStable = true →
      v.isStable = true ∧ (Fixed M S.rounds T v → Fixed M S.rounds T (f v)))
    (hd : ∀ v, (f v).designates = false) :
    Takes S d (do let h ← x; return ⟨h.stmts, f h.value⟩) (m >>= k) := by
  intro s hs
  refine (h s hs).bind fun h s' ⟨hle, hr, hv, _⟩ =>
    gives_pure ⟨hle, hr.around (heval h.value) fun I a σ τ _ => hk I a σ τ, fun hf => ?_,
      fun hf => ?_⟩
  · obtain ⟨hvalue, hfixed⟩ := hstable h.value (Range tempBase.toNat s'.next) hf
    exact hfixed (hv hvalue)
  · exact nomatch (hd _).symm.trans hf

/-- A node that has the value of its part. -/
theorem Takes.passing (h : Takes S designates x m)
    (heval : ∀ v, eval M S.rounds (f v) = eval M S.rounds v)
    (hstable : ∀ v, (f v).isStable = true → v.isStable = true) (hd : ∀ v, (f v).designates = false)
    :
    Takes S d (do let h ← x; return ⟨h.stmts, f h.value⟩) m := by
  have hpass := Takes.around (k := pure) (d := d) h
    (fun v => (heval v).trans (bind_pure_self _).symm) (fun _ _ _ _ hm => reads_pure hm)
    (fun v T hs => ⟨hstable v hs, fun hf l => ?_⟩) hd
  · rwa [bind_pure_self] at hpass
  · obtain ⟨a, ha⟩ := hf l
    refine ⟨a, fun τ hτ => ?_⟩
    rw [heval]
    exact ha τ hτ

end Around

namespace Simulates

variable {inner : Lowering} {loc : Loc} {type : Ty}

theorem paren (h : Simulates S inner m) : Simulates S (.paren loc type inner) m where
  value hv := (h.value hv).passing (fun _ => rfl) (fun _ => id) fun _ => rfl
  stmt := h.stmt
  body := h.body

theorem annot {name : String} (h : Simulates S inner m) :
    Simulates S (.annot loc type name inner) m where
  value hv := (h.value hv).passing (fun _ => rfl) (fun _ => id) fun _ => rfl
  stmt := h.stmt
  body := h.body

section

variable (h : Simulates S inner m) (hv : inner.source.valued = true)
include h hv

theorem cast : Simulates S (.cast loc type none inner) m :=
  .ofValue ((h.value hv).passing (fun _ => rfl) nofun fun _ => rfl) rfl

theorem checkedCast {path : TypePath} :
    Simulates S (.cast loc type (some path) inner) (do perform (.cast path (← m))) :=
  .ofValue ((h.value hv).around (fun _ => rfl) (fun _ _ _ _ hm => reads_perform _ hm)
    nofun fun _ => rfl) rfl

theorem enumParam {ctor : String} {slot : UInt32} :
    Simulates S (.enumParam loc type ctor slot inner) (do read (M.enumParam ctor slot (← m))) :=
  .ofValue (Takes.around (f := fun v => .enumParam loc type v ctor slot) (h.value hv)
    (fun _ => rfl) (fun _ _ _ _ hm => reads_read _ hm) nofun fun _ => rfl)
    rfl

theorem enumIndex : Simulates S (.enumIndex loc inner) (do read (M.enumIndex (← m))) :=
  .ofValue ((h.value hv).around (fun _ => rfl) (fun _ _ _ _ hm => reads_read _ hm)
    nofun fun _ => rfl) rfl

end

end Simulates

/-! ## Nodes with several values -/

section Several

variable {parts : List (Wanted M)} {d : Bool}

theorem takes_listed {f : List Expr → Expr} {k : List M.Value → Exec M M.Value}
    (hparts : ∀ p ∈ parts, Takes S p.source.designates p.taken p.meaning)
    (heval : ∀ vs, Shaped vs (parts.map Wanted.source) →
      eval M S.rounds (f vs) = (evalList M S.rounds vs >>= k))
    (hk : ∀ I as σ τ, Match S.scope I σ τ → Reads S (k as σ) (k as) τ)
    (hstable : ∀ vs, (f vs).isStable = false) (hd : ∀ vs, (f vs).designates = false) :
    Takes S d (do
      let (stmts, values) ← operands (parts.map Wanted.taken)
      return ⟨stmts, f values⟩) (collect (parts.map Wanted.meaning) >>= k) := by
  intro s hs
  refine (gives_operands hparts hs).bind fun r s' ⟨hle, hr, hshape⟩ =>
    gives_pure ⟨hle, ?_, fun hf => ?_, fun hf => ?_⟩
  · intro I hg hI σ τ hm
    refine (hr I hg hI σ τ hm).source_bind.mono fun _ τ' ⟨hI', hreads⟩ => ⟨hI', ?_⟩
    dsimp only
    rw [heval r.2 hshape]
    exact hreads.bind fun as σ' τ'' hm' => hk _ as σ' τ'' hm'
  · exact nomatch (hstable _).symm.trans hf
  · exact nomatch (hd _).symm.trans hf

theorem takes_pair {a b : Lowering} {m' : Exec M M.Value} {f : Expr → Expr → Expr}
    {k : M.Value → M.Value → Exec M M.Value} (ha : Takes S a.source.designates a.value m)
    (hb : Takes S b.source.designates b.value m')
    (heval : ∀ v w, eval M S.rounds (f v w) =
      (do let a ← eval M S.rounds v; let b ← eval M S.rounds w; k a b))
    (hk : ∀ I a b σ τ, Match S.scope I σ τ → Reads S (k a b σ) (k a b) τ)
    (hstable : ∀ v w, (f v w).isStable = false) (hd : ∀ v w, (f v w).designates = false) :
    Takes S d (do
      let (stmts, v, w) ← operandPair a.value b.value
      return ⟨stmts, f v w⟩) (do let a ← m; let b ← m'; k a b) := by
  have hparts : ∀ p ∈ [⟨a.value, m, a.source⟩, (⟨b.value, m', b.source⟩ : Wanted M)],
      Takes S p.source.designates p.taken p.meaning :=
    forall_mem_cons.2 ⟨ha, forall_mem_cons.2 ⟨hb, nofun⟩⟩
  have hlisted := takes_listed (d := d)
    (f := fun vs => f (vs.headD .omitted) (vs.tail.headD .omitted))
    (k := fun as => k (as.headD M.null) (as.tail.headD M.null)) hparts (fun vs hshape => ?_)
    (fun I as σ τ hm => hk I _ _ σ τ hm) (fun _ => hstable _ _) fun _ => hd _ _
  · rw [operandPair_eq]
    simpa [collect] using hlisted
  · rcases hshape with _ | ⟨_, _ | ⟨_, _ | _⟩⟩
    simp [heval, evalList]

end Several

def Operand (S : Setting M) (l : Lowering) : Prop :=
  Takes S l.source.designates l.value (eval M S.rounds l.source)

def wanted (S : Setting M) (l : Lowering) : Wanted M :=
  ⟨l.value, eval M S.rounds l.source, l.source⟩

theorem collect_wanted (ls : List Lowering) : collect ((ls.map (wanted S)).map Wanted.meaning) =
    evalList M S.rounds (ls.map source) := by
  induction ls with
  | nil => rfl
  | cons l rest ih =>
    simp only [map_cons, collect, ih, evalList, wanted]

/-- The operands are evaluated, then an event is performed. -/
theorem takes_performed {ls : List Lowering} {f : List Expr → Expr}
    {k : List M.Value → Event M.Value} (h : ∀ l ∈ ls, Operand S l)
    (heval : ∀ vs, Shaped vs (ls.map source) →
      eval M S.rounds (f vs) = (do perform (k (← evalList M S.rounds vs))))
    (hstable : ∀ vs, (f vs).isStable = false) (hd : ∀ vs, (f vs).designates = false) :
    Takes S d (do
      let (stmts, values) ← operands (ls.map value)
      return ⟨stmts, f values⟩)
      (do perform (k (← evalList M S.rounds (ls.map source)))) := by
  have hsource : (ls.map (wanted S)).map Wanted.source = ls.map source := map_map
  have htaken : (ls.map (wanted S)).map Wanted.taken = ls.map value := map_map
  rw [← htaken, ← collect_wanted]
  rw [← hsource] at heval
  exact takes_listed (forall_mem_map.2 h) heval (fun _ _ _ _ hm => reads_perform _ hm) hstable hd

namespace Simulates

variable {loc : Loc} {type : Ty}
variable {args : List Lowering}
variable {rounds : Nat} {fields : List (FieldInit Lowering)} {ref : MemberRef}
variable {receiver : Option Lowering}

theorem array {elements : List Lowering} (h : ∀ e ∈ elements, Operand S e) :
    Simulates S (.array loc type elements)
      (eval M S.rounds (.array loc type (elements.map source))) :=
  .ofValue (takes_performed h (fun _ _ => rfl) (fun _ => rfl) fun _ => rfl) rfl

theorem new {cls : TypePath} {ctorType : Ty} (h : ∀ a ∈ args, Operand S a) :
    Simulates S (.new loc type cls ctorType args)
      (eval M S.rounds (.new loc type cls ctorType (args.map source))) :=
  .ofValue (takes_performed h (fun _ _ => rfl) (fun _ => rfl) fun _ => rfl) rfl

theorem map_zipWith_field {vs : List Expr} (h : vs.length = fields.length) :
    let named := fields.zipWith (fun f v => (⟨f.name, v⟩ : FieldInit Expr)) vs
    named.map FieldInit.name = fields.map FieldInit.name ∧ named.map FieldInit.value = vs := by
  induction fields generalizing vs with
  | nil => exact ⟨rfl, (eq_nil_of_length_eq_zero h).symm⟩
  | cons f rest ih =>
    cases vs with
    | nil => cases h
    | cons v =>
      obtain ⟨hnames, hvalues⟩ := ih (Nat.succ.inj h)
      exact ⟨congrArg (f.name :: ·) hnames, congrArg (v :: ·) hvalues⟩

theorem object (h : ∀ f ∈ fields, Operand S f.value) : Simulates S (.object loc type fields)
    (eval M S.rounds (.object loc type (fields.map fun f => ⟨f.name, f.value.source⟩))) := by
  have hvalues : ∀ l ∈ fields.map FieldInit.value, Operand S l := forall_mem_map.2 h
  have htakes : Takes S false _ _ := takes_performed (k := .object (fields.map FieldInit.name))
    (f := fun vs => .object loc type (fields.zipWith (fun f v => ⟨f.name, v⟩) vs)) hvalues
    (fun vs hshape => ?_) (fun _ => rfl) fun _ => rfl
  · refine .ofValue ?_ rfl
    rw [eval, evalFields_eq, map_map, map_map]
    simp only [map_map] at htakes
    exact htakes
  · have hlen : vs.length = fields.length := by simpa using hshape.length_eq
    obtain ⟨hnames, hvalues⟩ := map_zipWith_field hlen
    rw [eval, evalFields_eq, hnames, hvalues]

/-- The receiver is taken with the arguments. -/
theorem callMember {memberLoc : Loc} {memberType : Ty} (hr : ∀ r ∈ receiver, Operand S r)
    (hargs : ∀ a ∈ args, Operand S a) :
    Simulates S (.callMember loc type memberLoc memberType ref receiver args)
      (eval M S.rounds (.call loc type (.field memberLoc memberType ref (receiver.map source))
        (args.map source))) := by
  refine .ofValue ?_ rfl
  cases receiver with
  | none =>
    exact takes_performed hargs (fun _ _ => rfl) (fun _ => rfl) fun _ => rfl
  | some receiver =>
    have hparts : ∀ l ∈ receiver :: args, Operand S l :=
      forall_mem_cons.2 ⟨hr receiver rfl, hargs⟩
    have htakes : Takes S false _ _ := takes_performed (f := fun vs =>
        .call loc type (.field memberLoc memberType ref (some (vs.headD .omitted))) vs.tail)
      (k := fun as => .call (.member ref (some (as.headD M.null))) as.tail) hparts
      (fun vs hshape => ?_) (fun _ => rfl) fun _ => rfl
    · change Takes S false _ _
      simpa [eval, evalReceiver, evalList] using htakes
    · cases hshape with
      | cons => simp [eval, evalReceiver, evalList]

/-- A callee that names nothing is evaluated. -/
theorem eval_call {callee : Expr} {args : List Expr} (h : callee.designates = false) :
    eval M rounds (.call loc type callee args) = (do
        let f ← eval M rounds callee
        let vs ← evalList M rounds args
        perform (.call (.value f) vs)) := by
  cases callee with
  | field | ident => cases h
  | _ => rfl

theorem call {callee : Lowering} (hfield : ∀ memberLoc memberType ref receiver,
      callee.source ≠ .field memberLoc memberType ref receiver) (hc : Operand S callee)
    (hargs : ∀ a ∈ args, Operand S a) :
    Simulates S (.call loc type callee args)
      (eval M S.rounds (.call loc type callee.source (args.map source))) := by
  refine .ofValue ?_ rfl
  split
  · rename_i hsource
    rw [hsource]
    exact takes_performed hargs (fun _ _ => rfl) (fun _ => rfl) fun _ => rfl
  · rename_i hsource
    rw [hsource]
    exact takes_performed hargs (fun _ _ => rfl) (fun _ => rfl) fun _ => rfl
  · rename_i hident _
    have hnamed : callee.source.designates = false := by
      cases hsource : callee.source with
      | field => exact absurd hsource (hfield _ _ _ _)
      | ident => exact absurd hsource (hident _ _ _)
      | _ => rfl
    have hparts : ∀ l ∈ callee :: args, Operand S l := forall_mem_cons.2 ⟨hc, hargs⟩
    have htakes : Takes S false _ _ := takes_performed
      (f := fun vs => .call loc type (vs.headD .omitted) vs.tail)
      (k := fun as => .call (.value (as.headD M.null)) as.tail) hparts
      (fun vs hshape => ?_) (fun _ => rfl) fun _ => rfl
    · rw [eval_call hnamed]
      change Takes S false _ _
      simpa [evalList] using htakes
    · cases hshape with
      | @cons v _ rest _ hhead _ =>
        have hv : v.designates = false := by
          cases hd : v.designates with
          | false => rfl
          | true => exact absurd (hnamed.symm.trans (hhead hd)) Bool.false_ne_true
        simp [eval_call hv, evalList]

theorem index {base position : Lowering} (hb : Operand S base) (hp : Operand S position) :
    Simulates S (.index loc type base position)
      (eval M S.rounds (.index loc type base.source position.source)) :=
  .of_takes (takes_pair hb hp (fun _ _ => rfl) (fun _ _ _ _ _ hm => reads_read _ hm)
    (fun _ _ => rfl) fun _ _ => rfl) rfl rfl rfl

/-- A member that is not forwarded to. An enum constructor has no receiver. -/
theorem field (hf : ref.isForwarded = false) (hc : ref.access = .enumCtor → receiver = none)
    (hr : ∀ r ∈ receiver, Operand S r) :
    Simulates S (.field loc type ref receiver)
      (eval M S.rounds (.field loc type ref (receiver.map source))) := by
  refine .of_takes ?_ rfl rfl rfl
  cases receiver with
  | none =>
    intro s _
    change Gives (if ref.isForwarded = true then _ else _) s _
    rw [if_neg (by simp [hf])]
    refine gives_pure ⟨.refl, Quiet.realizes (fun I _ σ τ hm => ?_) rfl, fun hs => ?_, fun _ => rfl⟩
    · by_cases hctor : ref.access = .enumCtor
      · simp only [Option.map_none, eval, if_pos hctor]
        exact reads_pure hm
      · simp only [Option.map_none, eval, if_neg hctor, evalReceiver, pure_bind]
        exact reads_read _ hm
    · have hctor : ref.access = .enumCtor := of_decide_eq_true hs
      refine fun l => ⟨M.ctor ref, fun τ _ => ?_⟩
      rw [eval, if_pos hctor]
      rfl
  | some receiver =>
    have hctor : ref.access ≠ .enumCtor := fun h => Option.some_ne_none _ (hc h)
    intro s hs
    refine (hr receiver rfl s hs).bind fun h s₁ htaken => ?_
    obtain ⟨hle, hreal, hstable, -⟩ := htaken
    rw [if_neg (by simp [hf])]
    have hs₁ : Reserved s₁ := Nat.le_trans S.first_le (Nat.le_trans hs hle)
    refine (gives_spill_realizes hs₁ hle hreal hstable).bind fun k s₂ hspilled => ?_
    obtain ⟨hle₂, hreal₂, -⟩ := hspilled
    refine gives_pure ⟨Nat.le_trans hle hle₂, ?_, fun hv => ?_, fun _ => rfl⟩
    · have haround := Realizes.around (e := .field loc type ref (some k.value))
        (k := fun a => read (M.member ref (some a))) hreal₂
        (by simp [eval, hctor, evalReceiver]) fun _ _ _ _ _ hm => reads_read _ hm
      simpa [eval, hctor, evalReceiver] using haround
    · exact absurd (of_decide_eq_true hv) hctor

theorem operation {op : BinaryOp} {lhs rhs : Lowering} {m' : Exec M M.Value}
    (hop : op.isMutating = false) (hand : op ≠ .and) (hor : op ≠ .or)
    (hl : Takes S lhs.source.designates lhs.value m)
    (hr : Takes S rhs.source.designates rhs.value m') :
    Takes S false (operation loc type op lhs rhs)
      (do let a ← m; let b ← m'; return M.binary op a b) :=
  takes_pair hl hr (fun _ _ => by rw [eval, binary_strict hop hand hor])
    (fun _ _ _ _ _ hm => reads_pure hm) (fun _ _ => rfl) fun _ _ => rfl

end Simulates

end LuaBackend.Normalize.Meaning
