import LuaBackend.Proofs.Normalize.Meaning.Fit
import LuaBackend.Proofs.Normalize.Prediction
import LuaBackend.Proofs.Semantics.Confined

/-!
# Values that need no statements

Taking the value of a node that needs no statements gives a node that does
what the given one does, in every state, and is pure if that is. Only
functions are made anew: a function literal gets its body in normal form,
which is the same value on machines that keep closures, and a method with
a Lua name of its own becomes a function that calls it, which is left out.
-/

namespace LuaBackend

open List Expr

namespace Expr

variable {e c : Expr}

def forwards : Expr → Bool
  | field _ _ ref _ => ref.isForwarded
  | _ => false

/-- The parts that are taken as values with the node: all but a member that
is called, and none of a function. -/
def valueParts : Expr → List Expr
  | call _ _ (field _ _ _ receiver) args => receiver.toList ++ args
  | function .. => []
  | e => e.children

/-- Methods with a Lua name of their own are called only, outside of
function literals. -/
def OnlyCallsNatives (e : Expr) : Prop :=
  e.forwards = false ∧ e.search (fun n => n.valueParts.any forwards) isFunction = false

instance (e : Expr) : Decidable e.OnlyCallsNatives := inferInstanceAs (Decidable (_ ∧ _))

theorem sizeOf_valuePart (h : c ∈ e.valueParts) : sizeOf c < sizeOf e := by
  unfold valueParts at h
  split at h
  · rename_i receiver args
    rcases mem_append.1 h with h | h
    · have := sizeOf_part h
      simp only [call.sizeOf_spec, field.sizeOf_spec]
      omega
    · exact sizeOf_child (.tail _ h)
  · exact absurd h not_mem_nil
  · exact sizeOf_child h

/-- Induction on the parts that are taken as values. -/
theorem induction_on_valueParts {P : Expr → Prop}
    (step : ∀ e : Expr, (∀ c ∈ e.valueParts, P c) → P e) (e : Expr) : P e :=
  (measure fun e : Expr => sizeOf e).wf.induction e fun e ih =>
    step e fun c hc => ih c (sizeOf_valuePart hc)

/-- What is not found in a node is not found in these parts. -/
theorem search_valuePart {hit : Expr → Bool} (h : e.search hit isFunction = false)
    (hc : c ∈ e.valueParts) : c.search hit isFunction = false := by
  have hbelow (hfun : e.isFunction = false) := ((search_eq_false_of_not_stop e hfun).1 h).2
  unfold valueParts at hc
  split at hc
  · rename_i receiver args
    rcases mem_append.1 hc with hc | hc
    · have hcallee := hbelow rfl _ (.head _)
      exact ((search_eq_false_of_not_stop _ rfl).1 hcallee).2 c hc
    · exact hbelow rfl c (.tail _ hc)
  · exact absurd hc not_mem_nil
  · rename_i hfun
    refine hbelow ?_ c hc
    cases e with
    | function => exact absurd rfl (hfun _ _ _ _ _)
    | _ => rfl

theorem OnlyCallsNatives.part (h : e.OnlyCallsNatives) (hc : c ∈ e.valueParts) :
    c.OnlyCallsNatives := by
  refine ⟨?_, search_valuePart h.2 hc⟩
  cases e with
  | function => exact absurd hc not_mem_nil
  | _ =>
    have hnode := ((search_eq_false_of_not_stop _ rfl).1 h.2).1
    exact Bool.eq_false_iff.2 (any_eq_false.1 hnode c hc)

/-- The parts of a node that needs no statements need none. -/
theorem hoists_part (h : e.hoists = false) : ∀ c ∈ e.valueParts, c.hoists = false := by
  refine Normalize.hoistsList_eq_false.1 ?_
  cases e with
  | omitted | const | «local» | typeRef | ident | function => rfl
  | block | ite | switch | tryCatch | varDecl | forIn | loop | ret | brk | cont | throw =>
    cases h
  | field loc type ref receiver =>
    cases receiver with
    | none => rfl
    | some => exact (Bool.or_false _).trans (Bool.or_eq_false_iff.1 h).1
  | paren | annot | cast | enumParam | enumIndex => exact (Bool.or_false _).trans h
  | unary => exact (Bool.or_false _).trans (Bool.or_eq_false_iff.1 h).2
  | index => simpa [hoistsList, valueParts, children, hoists] using h
  | binary =>
    have hparts := (Bool.or_eq_false_iff.1 h).imp_left Bool.or_eq_false_iff.1
    simpa [hoistsList, valueParts, children] using ⟨hparts.1.2, hparts.2⟩
  | object =>
    exact Normalize.hoistsList_eq_false.2 (forall_mem_map.2 (Normalize.hoistsFields_eq_false.1 h))
  | array | new => exact h
  | call loc type callee =>
    cases callee with
    | field memberLoc memberType ref receiver => cases receiver <;> exact h
    | _ => exact h

end Expr

def Machine.KeepsClosures (M : Machine) : Prop := ∀ f s h s', f.isFunction = true →
  Normalize.normalizeValue f s = .ok h s' → M.closure h.value = M.closure f

namespace Normalize

open Lowering

variable {M : Machine} {rounds : Nat}
variable {loc : Loc} {type : Ty} {e lhs rhs : Expr} {op : BinaryOp} {es vs args : List Expr}
variable {fields : List (FieldInit Expr)} {ref : MemberRef} {receiver body : Option Expr}
variable {params : List (Param Expr)} {result : Ty} {callee : Expr}

/-- It does the same, and looks the same to what is around it. -/
structure Mirror (M : Machine) (rounds : Nat) (e v : Expr) : Prop where
  pure : v.isPure = e.isPure
  designates : v.designates = e.designates
  eval : eval M rounds v = eval M rounds e

def Mirrors (M : Machine) (rounds : Nat) (e : Expr) (value : Norm Hoisted) : Prop :=
  ∀ s, Gives value s fun h _ => h.stmts = [] ∧ Mirror M rounds e h.value

theorem Mirror.refl (e : Expr) : Mirror M rounds e e := ⟨rfl, rfl, rfl⟩

theorem gives_operandsAfter_mirror {items : List (Norm Hoisted)}
    (h : List.Forall₂ (Mirrors M rounds) es items) (done : List Expr) (s : TempSupply) :
    Gives (operandsAfter done items) s fun r _ =>
      r.1 = [] ∧ ∃ vs, r.2 = done ++ vs ∧ List.Forall₂ (Mirror M rounds) es vs := by
  induction h generalizing done s with
  | nil => exact gives_pure ⟨rfl, [], (append_nil done).symm, .nil⟩
  | cons he _ ih =>
    refine (he s).bind fun x s₁ hx => ?_
    rw [hx.1]
    refine (ih (done ++ [x.value]) s₁).mono fun r _ hr => ?_
    obtain ⟨hstmts, vs, hvs, hmirror⟩ := hr
    exact ⟨hstmts, x.value :: vs, hvs.trans (append_assoc ..), .cons hx.2 hmirror⟩

/-- Operands that need no statements are taken as they are. -/
theorem gives_operands_mirror (h : ∀ e ∈ es, Mirrors M rounds e (lower e).value) (s : TempSupply) :
    Gives (operands ((es.map lower).map value)) s fun r _ =>
      r.1 = [] ∧ List.Forall₂ (Mirror M rounds) es r.2 := by
  have hitems : List.Forall₂ (Mirrors M rounds) es ((es.map lower).map value) := by
    rw [map_map, forall₂_map_right_iff]
    exact forall₂_same.2 h
  refine (gives_operandsAfter_mirror hitems [] s).mono fun r _ hr => ?_
  obtain ⟨hstmts, vs, hvs, hmirror⟩ := hr
  exact ⟨hstmts, hvs ▸ hmirror⟩

theorem gives_operandPair_mirror {a b : Expr} {x y : Norm Hoisted} (hx : Mirrors M rounds a x)
    (hy : Mirrors M rounds b y) (s : TempSupply) : Gives (operandPair x y) s fun r _ =>
      r.1 = [] ∧ Mirror M rounds a r.2.1 ∧ Mirror M rounds b r.2.2 := by
  refine (hx s).bind fun u s₁ hu => (hy s₁).bind fun v s₂ hv => ?_
  rw [hv.1]
  exact gives_pure ⟨hu.1, hu.2, hv.2⟩

/-- Mirrors of a list have its values. -/
theorem evalList_mirror (h : List.Forall₂ (Mirror M rounds) es vs) :
    evalList M rounds vs = evalList M rounds es := by
  induction h with
  | nil => rfl
  | cons he _ ih => rw [evalList, evalList, he.eval, ih]

theorem evalFields_mirror (h : List.Forall₂ (Mirror M rounds) (fields.map FieldInit.value) vs) :
    (fields.zipWith (fun f v => FieldInit.mk f.name v) vs).map FieldInit.name =
        fields.map FieldInit.name ∧
      evalFields M rounds (fields.zipWith (fun f v => FieldInit.mk f.name v) vs) =
        evalFields M rounds fields := by
  induction fields generalizing vs with
  | nil =>
    cases h
    exact ⟨rfl, rfl⟩
  | cons f rest ih =>
    cases h with
    | cons hf hrest =>
      obtain ⟨hnames, hvalues⟩ := ih hrest
      refine ⟨congrArg (f.name :: ·) hnames, ?_⟩
      rw [zipWith_cons_cons, evalFields, evalFields, hf.eval, hvalues]

theorem mirrors_listed (es : List Expr) (make : List Expr → Expr)
    (h : ∀ c ∈ es, Mirrors M rounds c (lower c).value)
    (hmake : ∀ vs, List.Forall₂ (Mirror M rounds) es vs → Mirror M rounds e (make vs)) :
    Mirrors M rounds e (do
      let (stmts, values) ← operands ((es.map lower).map value)
      return ⟨stmts, make values⟩) :=
  fun s => (gives_operands_mirror h s).bind fun _ _ hr => gives_pure ⟨hr.1, hmake _ hr.2⟩

theorem Mirrors.around {inner : Expr} {value : Norm Hoisted} {f : Expr → Expr}
    (h : Mirrors M rounds inner value) (hf : ∀ v, Mirror M rounds inner v → Mirror M rounds e (f v))
    :
    Mirrors M rounds e (do let h ← value; return ⟨h.stmts, f h.value⟩) :=
  fun s => (h s).bind fun _ _ hx => gives_pure ⟨hx.1, hf _ hx.2⟩

theorem mirrors_field (hh : (field loc type ref receiver).hoists = false)
    (href : ref.isForwarded = false) (hr : ∀ r ∈ receiver, Mirrors M rounds r (lower r).value) :
    Mirrors M rounds (.field loc type ref receiver)
      (lower (.field loc type ref receiver)).value := by
  intro s
  cases receiver with
  | none =>
    change Gives (if ref.isForwarded = true then _ else _) s _
    rw [href, if_neg Bool.false_ne_true]
    exact gives_pure ⟨rfl, .refl _⟩
  | some r =>
    refine (hr r rfl s).bind fun x s₁ hx => ?_
    rw [href, if_neg Bool.false_ne_true]
    have hstay : (decide (ref.access = .closure) && !x.value.isPure) = false := by
      rw [hx.2.pure]
      simpa [hoists, href] using (Bool.or_eq_false_iff.1 hh).2
    refine (gives_spill (Q := fun y _ => y = ⟨[], x.value⟩)
      (fun hy _ => absurd (hstay.symm.trans hy) Bool.false_ne_true) fun _ => rfl).bind
      fun y _ hy => ?_
    subst hy
    refine gives_pure ⟨(append_nil _).trans hx.1, hx.2.pure, rfl, ?_⟩
    rw [eval, eval, evalReceiver, evalReceiver, hx.2.eval]

/-- The body of a function literal is normalized on its own. -/
theorem gives_function (s : TempSupply) :
    Gives (lower (.function loc type params result body)).value s fun h _ =>
      h.stmts = [] ∧ h.value.isFunction = true := by
  cases body with
  | none => exact gives_pure ⟨rfl, rfl⟩
  | some body =>
    exact ((predicted_lower body).body none s).bind fun _ _ _ => gives_pure ⟨rfl, rfl⟩

/-- What holds of every result can be added to what a run gives. -/
theorem Gives.and_ok {α : Type} {x : Norm α} {s : TempSupply} {P Q : α → TempSupply → Prop}
    (hx : Gives x s P) (h : ∀ a s', x s = .ok a s' → Q a s') :
    Gives x s fun a s' => P a s' ∧ Q a s' := by
  unfold Gives at hx ⊢
  split at hx
  · rename_i hr
    exact ⟨hx, h _ _ hr⟩
  · exact hx

theorem mirror_function {f g : Expr} (hf : f.isFunction = true) (hg : g.isFunction = true)
    (h : M.closure g = M.closure f) : Mirror M rounds f g := by
  cases f with
  | function =>
    cases g with
    | function => exact ⟨rfl, rfl, congrArg Pure.pure h⟩
    | _ => cases hg
  | _ => cases hf

theorem mirrors_function (hM : M.KeepsClosures) :
    Mirrors M rounds (.function loc type params result body)
      (lower (.function loc type params result body)).value := by
  intro s
  refine ((gives_function s).and_ok fun h s' => hM _ s h s' rfl).mono fun h _ hh => ?_
  obtain ⟨⟨hstmts, hf⟩, hclosure⟩ := hh
  exact ⟨hstmts, mirror_function rfl hf hclosure⟩

/-! ## Calls -/

theorem evalCallee_of_not_designates (h : e.designates = false) :
    evalCallee M rounds e = do return .value (← eval M rounds e) := by
  cases e with
  | field | ident => cases h
  | _ => rfl

/-- A call with the same callee and arguments. -/
theorem Mirror.call {c : Expr} (hc : evalCallee M rounds c = evalCallee M rounds callee)
    (ha : List.Forall₂ (Mirror M rounds) args vs) :
    Mirror M rounds (.call loc type callee args) (.call loc type c vs) := by
  refine ⟨rfl, rfl, ?_⟩
  rw [eval_call, eval_call, hc, evalList_mirror ha]

/-- The receiver, if there is one, and the arguments are taken. -/
theorem mirrors_callMember {memberLoc : Loc} {memberType : Ty}
    (h : ∀ c ∈ receiver.toList ++ args, Mirrors M rounds c (lower c).value) :
    Mirrors M rounds (.call loc type (.field memberLoc memberType ref receiver) args)
      (lower (.call loc type (.field memberLoc memberType ref receiver) args)).value := by
  rw [lower, lowerOption_eq_map, lowerList_eq_map]
  cases receiver with
  | none =>
    exact mirrors_listed args (.call loc type (.field _ _ ref none)) h fun _ hvs => .call rfl hvs
  | some receiver =>
    refine mirrors_listed (receiver :: args)
      (fun vs => .call loc type (.field _ _ ref (some (vs.headD .omitted))) vs.tail) h
      fun vs hvs => ?_
    cases hvs with
    | cons hreceiver hargs =>
      refine .call ?_ hargs
      rw [headD_cons, evalCallee, evalCallee, evalReceiver, evalReceiver, hreceiver.eval]

theorem mirrors_call (hfield : ∀ memberLoc memberType ref receiver,
      callee ≠ .field memberLoc memberType ref receiver)
    (h : ∀ c ∈ callee :: args, Mirrors M rounds c (lower c).value) :
    Mirrors M rounds (.call loc type callee args) (lower (.call loc type callee args)).value := by
  rw [lower_call hfield]
  have hkept (vs : List Expr) (hvs : List.Forall₂ (Mirror M rounds) args vs) :
      Mirror M rounds (.call loc type callee args) (.call loc type callee vs) := .call rfl hvs
  have htaken (hplain : callee.designates = false) (vs : List Expr)
      (hvs : List.Forall₂ (Mirror M rounds) (callee :: args) vs) :
      Mirror M rounds (.call loc type callee args)
        (.call loc type (vs.headD .omitted) vs.tail) := by
    cases hvs with
    | cons hcallee hargs =>
      refine .call ?_ hargs
      rw [headD_cons, evalCallee_of_not_designates hplain,
        evalCallee_of_not_designates (hcallee.designates.trans hplain), hcallee.eval]
  unfold Lowering.call
  rw [source_lower]
  split
  · exact mirrors_listed args _ (forall_mem_cons.1 h).2 hkept
  · exact mirrors_listed args _ (forall_mem_cons.1 h).2 hkept
  · rename_i hident _
    refine mirrors_listed (callee :: args) _ h (htaken ?_)
    cases callee with
    | field => exact absurd rfl (hfield _ _ _ _)
    | ident => exact absurd rfl (hident _ _ _)
    | _ => rfl

theorem mirrors_object (h : ∀ c ∈ fields.map FieldInit.value, Mirrors M rounds c (lower c).value) :
    Mirrors M rounds (.object loc type fields) (lower (.object loc type fields)).value := by
  have hitems : (fields.map fun f => FieldInit.mk f.name (lower f.value)).map
      (fun f => f.value.value) = ((fields.map FieldInit.value).map lower).map Lowering.value := by
    simp only [map_map, Function.comp_def]
  rw [lower, lowerFields_eq_map, Lowering.object, hitems]
  have hmake (vs : List Expr)
      (hvs : List.Forall₂ (Mirror M rounds) (fields.map FieldInit.value) vs) :
      Mirror M rounds (.object loc type fields) (.object loc type
        ((fields.map fun f => FieldInit.mk f.name (lower f.value)).zipWith
          (fun f v => ⟨f.name, v⟩) vs)) := by
    obtain ⟨hnames, hvalues⟩ := evalFields_mirror hvs
    refine ⟨rfl, rfl, ?_⟩
    rw [zipWith_map_left, eval, eval, hnames, hvalues]
  exact mirrors_listed _ _ h hmake

/-- An operator that does not store takes no place. -/
theorem binary_place {lhs rhs : Exec M M.Value} {p q : Exec M (Place M.Value)}
    (hop : op.isMutating = false) : Exec.binary op lhs p rhs = Exec.binary op lhs q rhs := by
  cases op with
  | assign | compound | nullCoalesce => cases hop
  | _ => rfl

theorem Mirror.binary {l r : Expr} (hop : op.isMutating = false) (hl : Mirror M rounds lhs l)
    (hr : Mirror M rounds rhs r) :
    Mirror M rounds (.binary loc type op lhs rhs) (.binary loc type op l r) := by
  refine ⟨?_, rfl, ?_⟩
  · rw [isPure, isPure, hl.pure, hr.pure]
  · rw [LuaBackend.eval, LuaBackend.eval, hl.eval, hr.eval]
    exact binary_place hop

/-- The right side is taken even if it may be skipped. -/
theorem mirrors_binary (hop : op.isMutating = false) (hh : rhs.hoists = false)
    (hl : Mirrors M rounds lhs (lower lhs).value) (hr : Mirrors M rounds rhs (lower rhs).value) :
    Mirrors M rounds (.binary loc type op lhs rhs) (lower (.binary loc type op lhs rhs)).value := by
  rw [value_binary]
  -- What may skip its right side is lowered apart, but not if that side stays in place.
  have hlazy : Mirrors M rounds (.binary loc type op lhs rhs)
      (shortCircuit loc type op (lower lhs) (lower rhs)) := by
    refine fun s => (hl s).bind fun x s₁ hx => ?_
    rw [source_lower, hh, if_neg Bool.false_ne_true]
    refine (hr s₁).bind fun y _ hy => gives_pure ⟨?_, hx.2.binary hop hy.2⟩
    rw [hx.1, hy.1, append_nil]
  have hstrict : Mirrors M rounds (.binary loc type op lhs rhs)
      (operation loc type op (lower lhs) (lower rhs)) :=
    fun s => (gives_operandPair_mirror hl hr s).bind fun _ _ hlr =>
      gives_pure ⟨hlr.1, hlr.2.1.binary hop hlr.2.2⟩
  cases op with
  | assign | compound | nullCoalesce => cases hop
  | and | or => exact hlazy
  | _ => exact hstrict

theorem mirrors_unary {op : UnaryOp} {isPost : Bool} {operand : Expr} (hop : op.isStep = false)
    (h : Mirrors M rounds operand (lower operand).value) :
    Mirrors M rounds (.unary loc type op isPost operand)
      (lower (.unary loc type op isPost operand)).value := by
  change Mirrors M rounds _ (unaryValue _ _ op _ (lower operand))
  rw [unaryValue, hop, if_neg Bool.false_ne_true]
  refine h.around fun v hv => ⟨?_, rfl, ?_⟩
  · rw [mkUnary, isPure, isPure, hv.pure]
  · rw [mkUnary, eval, eval, hv.eval, Exec.unary, Exec.unary, hop]
    rfl

/-- **A node that needs no statements is taken as it is.** -/
theorem mirrors_lower (rounds : Nat) (hM : M.KeepsClosures) (hh : e.hoists = false)
    (hn : e.OnlyCallsNatives) : Mirrors M rounds e (lower e).value := by
  induction e using induction_on_valueParts with
  | step e ih =>
    replace ih : ∀ c ∈ e.valueParts, Mirrors M rounds c (lower c).value :=
      fun c hc => ih c hc (hoists_part hh c hc) (hn.part hc)
    cases e with
    | function => exact mirrors_function hM
    | block | ite | switch | tryCatch | varDecl | forIn | loop | ret | brk | cont | throw =>
      -- These always need statements.
      cases hh
    | omitted | const | «local» | typeRef | ident => exact fun _ => gives_pure ⟨rfl, .refl _⟩
    | field =>
      exact mirrors_field hh hn.1 fun r hr => ih r (Option.mem_toList.2 hr)
    | index loc type base position =>
      have hposition := ih position (.tail _ (.head _))
      refine fun s => (gives_operandPair_mirror (ih base (.head _)) hposition s).bind
        fun _ _ hr => gives_pure ⟨hr.1, ?_, rfl, ?_⟩
      · rw [isPure, isPure, hr.2.1.pure, hr.2.2.pure]
      · rw [eval, eval, hr.2.1.eval, hr.2.2.eval]
    | paren _ _ inner | annot _ _ _ inner =>
      exact (ih inner (.head _)).around fun _ hv => ⟨hv.pure, rfl, hv.eval⟩
    | cast loc type checked inner =>
      refine (ih inner (.head _)).around fun _ hv => ?_
      cases checked with
      | none => exact ⟨hv.pure, rfl, hv.eval⟩
      | some =>
        refine ⟨rfl, rfl, ?_⟩
        rw [eval, eval, hv.eval]
    | enumParam loc type value ctor slot =>
      refine (ih value (.head _)).around
        (f := fun v => .enumParam loc type v ctor slot) fun _ hv => ⟨hv.pure, rfl, ?_⟩
      rw [eval, eval, hv.eval]
    | enumIndex loc value =>
      refine (ih value (.head _)).around fun _ hv => ⟨hv.pure, rfl, ?_⟩
      rw [eval, eval, hv.eval]
    | object => exact mirrors_object ih
    | array loc type elements =>
      rw [lower, lowerList_eq_map]
      refine mirrors_listed elements (.array loc type) ih fun _ hvs => ⟨rfl, rfl, ?_⟩
      rw [eval, eval, evalList_mirror hvs]
    | new loc type cls ctorType args =>
      rw [lower, lowerList_eq_map]
      refine mirrors_listed args (.new loc type cls ctorType) ih fun _ hvs => ⟨rfl, rfl, ?_⟩
      rw [eval, eval, evalList_mirror hvs]
    | call loc type callee =>
      cases callee with
      | field => exact mirrors_callMember ih
      | _ => exact mirrors_call (fun _ _ _ _ h => by cases h) ih
    | binary loc type op lhs rhs =>
      have hop := (Bool.or_eq_false_iff.1 (Bool.or_eq_false_iff.1 hh).1).1
      exact mirrors_binary hop (Bool.or_eq_false_iff.1 hh).2 (ih lhs (.head _))
        (ih rhs (.tail _ (.head _)))
    | unary loc type op isPost operand =>
      exact mirrors_unary (Bool.or_eq_false_iff.1 hh).1 (ih operand (.head _))

end Normalize

end LuaBackend
