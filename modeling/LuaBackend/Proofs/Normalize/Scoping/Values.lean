import LuaBackend.Proofs.Normalize.Scoping.Basic

/-!
# Scopes of lowered values

The lowering of each kind of value keeps to a rule of scoping if those of
its parts do. The function that forwards to a method is the one value
that declares temporaries of its own, as parameters.
-/

namespace LuaBackend

open Expr List

namespace Normalize.Scoping

open Lowering

variable {R : ScopeRule} {V B : Var → Prop} {a b n : Nat} {E : List Var} {s : TempSupply}
variable {e : Expr} {ts : List Var} {assignee : Option Expr}
variable {value : Norm Hoisted} {how : Spill}
variable {loc : Loc} {type : Ty} {ref : MemberRef}

theorem Source.operand {c : Expr} (h : Source R V B n e) (hc : c ∈ e.operands)
    (hf : Fits R V B n E c) : Operand R V B n E c := ⟨hf, h.tidy.1 c hc⟩

/-- A part of a node whose parts all stand for values. -/
theorem Fits.operand {c : Expr} (hf : Fits R V B n E e) (hplain : e.isPlain = true)
    (ho : e.operands = e.children) (hc : c ∈ e.children) : Operand R V B n E c :=
  ((scoped_plain hplain).1 hf).1.operand (ho ▸ hc) (((scoped_plain hplain).1 hf).2 c hc)

theorem naming_nil {P : Var → Prop} (h : e.vars = []) : Naming P e := by
  intro v hv
  rw [h] at hv
  cases hv

/-- A node declares variables of the program with `B`. -/
theorem Fits.declares (h : Fits R V B n E e) : ∀ d ∈ e.declares, d.isTemp = false ∧ B d :=
  Binds.declares (h.throughout.mono fun _ hn => hn.binds)

theorem receives_none : Receives R V B n E none := nofun

/-- The place may be stored into after the statements. -/
theorem Receives.after {stmts : List Expr} (h : Receives R V B a E assignee)
    (hs : Before R V E a b stmts) :
    Receives R V B b (declared stmts ++ E) assignee :=
  fun p hp => ⟨Obeys.after (h p hp).1 hs, (h p hp).2⟩

theorem Receives.mono (h : Receives R V B a E assignee) (hab : a ≤ b) :
    Receives R V B b E assignee :=
  fun p hp => ⟨Obeys.mono (h p hp).1 hab, (h p hp).2⟩

/-- The place may be stored into below a declaration of the node. -/
theorem Receives.cons {v : Var} (h : Receives R V B n E assignee) (hv : v.isTemp = false) (hB : B v)
    : Receives R V B n (v :: E) assignee := by
  refine fun p hp => ⟨?_, (h p hp).2⟩
  refine Scoped.weaken (D := [v]) (fun d hd => ?_) (h p hp).1
  rw [mem_singleton.1 hd]
  exact (h p hp).2.mono fun w hw => hw v hv hB

theorem StmtScoped.body {stmt : Option Expr → Norm (List Expr)} (h : StmtScoped R e stmt) :
    BodyScoped R e stmt :=
  fun _ _ _ _ _ hE hf hr => (h hE hf hr).mono fun _ _ hs => ⟨hs.le, hs.run⟩

theorem obeys_assign {op : BinaryOp} {place value : Expr} (hp : Obeys R V n E place)
    (hv : Obeys R V n E value) :
    Obeys R V n E (.binary loc type op place value) :=
  (scoped_two rfl).2 ⟨naming_nil rfl, hp, hv⟩

/-- A value that is stored or dropped. -/
theorem stmtScoped_storeOrDrop (he : e.declares = []) (hv : ValueScoped R e value) :
    StmtScoped R e (storeOrDrop loc value) := by
  intro V B E s assignee hE hf hr
  rw [he]
  refine (hv hE hf fun d hd => ?_).bind fun h s₁ hh => ?_
  · rw [he] at hd
    cases hd
  · cases assignee with
    | some place =>
      refine gives_pure (hh.before.snoc ?_ rfl).replaces
      exact obeys_assign (Obeys.after (hr place rfl).1 hh.before) hh.value
    | none =>
      dsimp only
      split
      · exact gives_pure hh.before.replaces
      · exact gives_pure (hh.before.snoc hh.value hh.plain).replaces

/-- A node that is lowered to a value. -/
theorem WellScoped.ofValue (he : e.declares = []) (hv : ValueScoped R e value) :
    WellScoped R (.ofValue e value) where
  value := hv
  target _ := hv
  stmt := stmtScoped_storeOrDrop he hv
  body := (stmtScoped_storeOrDrop he hv).body

theorem WellScoped.leaf (he : e.declares = []) : WellScoped R (.leaf e) :=
  .ofValue he fun _ _ _ _ _ hf _ =>
    gives_pure ⟨before_nil, Scoped.mono hf fun _ hn => hn.names, he⟩

/-! ## Members and elements -/

section Forwarder

/-- Temporaries from `a` up to `b`, each with its own number. -/
structure FreshParams (a b : Nat) (ts : List Var) : Prop where
  le : a ≤ b
  temp : ∀ t ∈ ts, t.isTemp = true ∧ a ≤ t.id.toNat ∧ t.id.toNat < b
  distinct : ts.Pairwise fun t u => t.id ≠ u.id

/-- The parameters of a forwarding function are new. -/
theorem gives_freshTemps : ∀ {types : List Ty} {s : TempSupply}, Reserved s →
    Gives (freshTemps types) s fun ts s' => FreshParams s.next s'.next ts
  | [], _, _ => gives_pure ⟨.refl, nofun, .nil⟩
  | type :: rest, s, hs => by
    refine gives_freshTemp_bind fun hlt => ?_
    have hs' : Reserved (afterTemp s) := Nat.le_succ_of_le hs
    refine (gives_freshTemps hs').bind fun ts s₂ hts => gives_pure ?_
    have hid : (nextTemp s type).id.toNat = s.next := toNat_nextTemp hlt
    have hle : s.next + 1 ≤ s₂.next := hts.le
    refine ⟨by omega, forall_mem_cons.2 ⟨⟨isTemp_nextTemp hs hlt, by omega, by omega⟩, ?_⟩, ?_⟩
    · intro u hu
      obtain ⟨ht, hlow, hhigh⟩ := hts.temp u hu
      have hlow : s.next + 1 ≤ u.id.toNat := hlow
      exact ⟨ht, by omega, hhigh⟩
    · refine pairwise_cons.2 ⟨fun u hu heq => ?_, hts.distinct⟩
      have hlow : s.next + 1 ≤ u.id.toNat := (hts.temp u hu).2.1
      rw [← heq] at hlow
      omega

section

variable (htemp : ∀ t ∈ ts, t.isTemp = true) (hdistinct : ts.Pairwise fun t u => t.id ≠ u.id)
include htemp hdistinct

/-- The parameters may be declared one after the other. -/
theorem FreshParams.declaresAll :
    ∀ {E : List Var}, (∀ d ∈ E, ∀ t ∈ ts, R.apart d t) → R.DeclaresAll E ts := by
  induction ts with
  | nil => exact fun _ => trivial
  | cons t rest ih =>
    intro E hE
    rw [pairwise_cons] at hdistinct
    rw [forall_mem_cons] at htemp
    refine ⟨R.declares_own htemp.1 fun d hd => hE d hd t mem_cons_self, ?_⟩
    refine ih htemp.2 hdistinct.2 (forall_mem_cons.2 ⟨fun u hu => ?_, fun d hd u hu => ?_⟩)
    · exact R.apart_temp (.inl htemp.1) (hdistinct.1 u hu)
    · exact hE d hd u (.tail _ hu)

/-- Each parameter can be read in the body. -/
theorem FreshParams.reads (hE : ∀ d ∈ E, ∀ t ∈ ts, R.apart d t) :
    ∀ t ∈ ts, R.reads (ts.reverse ++ E) t := by
  intro t ht
  obtain ⟨before, after, rfl⟩ := append_of_mem ht
  rw [pairwise_append, pairwise_cons] at hdistinct
  obtain ⟨-, ⟨hafter, -⟩, hbefore⟩ := hdistinct
  have hself := htemp t ht
  have hsplit : (before ++ t :: after).reverse ++ E = after.reverse ++ t :: (before.reverse ++ E) := by
    simp
  rw [hsplit]
  refine R.reads_own hself (fun d hd => ?_) (forall_mem_append.2 ⟨fun d hd => ?_, ?_⟩)
  · exact R.apart_temp (.inr hself) (hafter d (mem_reverse.1 hd)).symm
  · exact R.apart_temp (.inr hself) (hbefore d (mem_reverse.1 hd) t mem_cons_self)
  · exact fun d hd => hE d hd t ht

end

theorem FreshParams.new (h : FreshParams a b ts) : ∀ d ∈ ts.reverse, R.New a b d :=
  fun d hd => .inl (h.temp d (mem_reverse.1 hd))

theorem FreshParams.known (h : FreshParams a b ts) : ∀ t ∈ ts, Known V b t := by
  intro t ht
  obtain ⟨htemp, -, hhigh⟩ := h.temp t ht
  refine ⟨fun _ => hhigh, fun hf => ?_⟩
  rw [htemp] at hf
  cases hf

/-- The function that passes its arguments on to a method. -/
theorem gives_forwarder {receiver : Option Expr} (hE : Around E s)
    (hr : ∀ r ∈ receiver, Obeys R V s.next E r) :
    Gives (forwarder loc type ref receiver) s fun f s' =>
      s.next ≤ s'.next ∧ Obeys R V s'.next E f ∧ f.declares = [] := by
  unfold forwarder
  dsimp only
  generalize (if type.unwrap.isKind .function = true then type.unwrap.result else .dynamic) = result
  refine (gives_freshTemps hE.reserved).bind fun ts s₁ hts => gives_pure ⟨hts.le, ?_, rfl⟩
  have htemp : ∀ t ∈ ts, t.isTemp = true := fun t ht => (hts.temp t ht).1
  have hapart : ∀ d ∈ E, ∀ t ∈ ts, R.apart d t := by
    intro d hd t ht
    refine R.apart_temp (.inr (htemp t ht)) fun hid => ?_
    have hdt : d.isTemp = true := by
      rw [← htemp t ht, Var.isTemp, Var.isTemp, hid]
    have hlow := (hts.temp t ht).2.1
    have hlt := hE.below d hd hdt
    rw [hid] at hlt
    omega
  have hvars : (ts.map fun v => (⟨v, false, none⟩ : Param Expr)).map Param.var = ts := by
    rw [map_map]
    exact map_id ts
  -- the call in the body reads the receiver and the parameters
  have hcall : Obeys R V s₁.next (ts.reverse ++ E)
      (.call loc result (.field loc type ref receiver) (ts.map (.local loc ·))) := by
    refine scoped_call.2 ⟨naming_nil rfl, scoped_field.2 ⟨naming_nil rfl, fun r hmem => ?_⟩, ?_⟩
    · exact Obeys.under (hr r hmem) hts.new hts.le
    · refine forall_mem_map.2 fun t ht => scoped_local.2 ⟨?_, ?_⟩
      · exact FreshParams.reads htemp hts.distinct hapart t ht
      · exact fun v hv => mem_singleton.1 hv ▸ hts.known t ht
  refine scoped_function.2 ⟨⟨?_, ?_⟩, ?_, ?_⟩
  · rw [hvars]
    exact FreshParams.declaresAll htemp hts.distinct hapart
  · intro v hv
    rw [Expr.vars, hvars] at hv
    exact hts.known v hv
  · intro p hp d hd
    obtain ⟨v, -, rfl⟩ := mem_map.1 hp
    cases hd
  · intro body hbody
    rw [hvars, ← Option.some.inj hbody]
    refine scoped_block.2 ⟨naming_nil rfl, (scopedSeq_cons _ _).2 ⟨?_, scopedSeq_nil⟩⟩
    split
    · exact hcall
    · exact scoped_ret.2 ⟨naming_nil rfl, fun v hv => Option.some.inj hv ▸ hcall⟩

end Forwarder

section Member

variable {loc : Loc} {type : Ty} {ref : MemberRef} {receiver : Option Lowering}

theorem obeys_field (h : Obeys R V n E e) : Obeys R V n E (.field loc type ref (some e)) :=
  scoped_field.2 ⟨naming_nil rfl, fun _ hr => Option.some.inj hr ▸ h⟩

theorem obeys_field_none : Obeys R V n E (.field loc type ref none) :=
  scoped_field.2 ⟨naming_nil rfl, nofun⟩

section

variable (h : ∀ r ∈ receiver, WellScoped R r)
include h

/-- The receiver of a forwarded method goes into the function. -/
theorem valueScoped_field : ValueScoped R (.field loc type ref (receiver.map source))
      (fieldValue loc type ref receiver) := by
  intro V B E s hE hf _
  cases receiver with
  | none =>
    rw [fieldValue]
    split
    · have hnone : ∀ r ∈ (none : Option Expr), Obeys R V s.next E r := nofun
      refine (gives_forwarder hE hnone).bind fun f s₁ hfw => gives_pure ?_
      exact ⟨before_nil.mono .refl hfw.1, hfw.2.1, hfw.2.2⟩
    · exact gives_pure ⟨before_nil, obeys_field_none, rfl⟩
  | some r =>
    refine ((h r rfl).taken hE (Fits.operand hf rfl rfl mem_cons_self)).bind fun x s₁ hx => ?_
    split
    · refine (hx.gives_spill hE).bind fun y s₂ hy => ?_
      refine (gives_forwarder (hE.after hy.before)
        fun _ hr => Option.some.inj hr ▸ hy.value).bind fun f s₃ hfw => gives_pure ?_
      exact ⟨hy.before.mono .refl hfw.1, hfw.2.1, hfw.2.2⟩
    · refine (hx.gives_spill hE).bind fun y s₂ hy => gives_pure ?_
      exact ⟨hy.before, obeys_field hy.value, rfl⟩

theorem valueScoped_fieldTarget : ValueScoped R (.field loc type ref (receiver.map source))
      (fieldTarget loc type ref receiver how) := by
  intro V B E s hE hf _
  cases receiver with
  | none => exact gives_pure ⟨before_nil, obeys_field_none, rfl⟩
  | some r =>
    refine ((h r rfl).taken hE (Fits.operand hf rfl rfl mem_cons_self)).bind fun x s₁ hx => ?_
    exact (hx.gives_spill hE).bind fun y s₂ hy =>
      gives_pure ⟨hy.before, obeys_field hy.value, rfl⟩

theorem WellScoped.field : WellScoped R (.field loc type ref receiver) where
  value := valueScoped_field h
  target _ := valueScoped_fieldTarget h
  stmt := stmtScoped_storeOrDrop rfl (valueScoped_field h)
  body := (stmtScoped_storeOrDrop rfl (valueScoped_field h)).body

end

end Member

section Index

variable {loc : Loc} {type : Ty} {base position : Lowering}

theorem operand_pair {x y : Expr} (hf : Fits R V B n E e) (hplain : e.isPlain = true)
    (ho : e.operands = e.children) (hc : e.children = [x, y]) :
    Operand R V B n E x ∧ Operand R V B n E y :=
  ⟨Fits.operand hf hplain ho (hc ▸ mem_cons_self),
    Fits.operand hf hplain ho (hc ▸ .tail _ mem_cons_self)⟩

theorem obeys_index {x y : Expr} (hx : Obeys R V n E x) (hy : Obeys R V n E y) :
    Obeys R V n E (.index loc type x y) :=
  (scoped_two rfl).2 ⟨naming_nil rfl, hx, hy⟩

section

variable (hb : WellScoped R base) (hp : WellScoped R position)
include hb hp

theorem valueScoped_index : ValueScoped R (.index loc type base.source position.source) (do
      let (stmts, b, p) ← operandPair base.value position.value
      return ⟨stmts, .index loc type b p⟩) := by
  intro V B E s hE hf _
  obtain ⟨hob, hop⟩ := operand_pair hf rfl rfl rfl
  refine (gives_operandPair_leaves hb hp hE hob hop).bind fun ⟨stmts, x, y⟩ s₁ h => gives_pure ?_
  have hobeys := h.keeps
  simp only [forall_mem_cons] at hobeys
  exact ⟨h.before, obeys_index hobeys.1 hobeys.2.1, rfl⟩

/-- The parts of a place are moved as they have to be. -/
theorem valueScoped_indexTarget : ValueScoped R (.index loc type base.source position.source)
      (indexTarget loc type base position how) := by
  intro V B E s hE hf _
  obtain ⟨hob, hop⟩ := operand_pair hf rfl rfl rfl
  refine (gives_operandPair_leaves hb hp hE hob hop).bind fun ⟨stmts, x, y⟩ s₁ h => ?_
  have hobeys := h.keeps
  have hplain := h.plain
  simp only [forall_mem_cons] at hobeys hplain
  have hE₁ := hE.after h.before
  refine (gives_spill_leaves hE₁ hobeys.1 hplain.1).bind fun x' s₂ hx => ?_
  have hE₂ := hE₁.after hx.before
  refine (gives_spill_leaves hE₂ (Obeys.after hobeys.2.1 hx.before) hplain.2.1).bind ?_
  intro y' s₃ hy
  have hy_before := hy.before
  rw [← append_assoc, ← declared_append] at hy_before
  refine gives_pure ⟨(h.before.append hx.before).append hy_before, ?_, rfl⟩
  · have hx' := Obeys.after hx.value hy.before
    have hy' := hy.value
    simp only [declared_append, append_assoc] at hx' hy' ⊢
    exact obeys_index hx' hy'

theorem WellScoped.index : WellScoped R (.index loc type base position) where
  value := valueScoped_index hb hp
  target _ := valueScoped_indexTarget hb hp
  stmt := stmtScoped_storeOrDrop rfl (valueScoped_index hb hp)
  body := (stmtScoped_storeOrDrop rfl (valueScoped_index hb hp)).body

end

end Index

theorem valueScoped_around {inner : Lowering} {f : Expr → Expr} (hi : WellScoped R inner)
    (ho : ∀ {V B E n}, Fits R V B n E e → (∀ d ∈ e.declares, R.Ignores d) →
      Operand R V B n E inner.source) (hf : ∀ {V E n x}, Obeys R V n E x → Obeys R V n E (f x))
    (hd : ∀ {x}, x.declares = [] → (f x).declares = []) :
    ValueScoped R e (do let h ← inner.value; return ⟨h.stmts, f h.value⟩) := by
  intro V B E s hE he hignores
  obtain ⟨hfits, hig⟩ := ho he hignores
  exact (hi.value hE hfits hig).bind fun h s₁ hh =>
    gives_pure ⟨hh.before, hf hh.value, hd hh.plain⟩

section Wrapper

variable {loc : Loc} {type : Ty} {inner : Lowering}

section

variable (h : WellScoped R inner)
include h

theorem WellScoped.paren : WellScoped R (.paren loc type inner) where
  value := valueScoped_around h (fun hf hd => ⟨((scoped_one rfl).1 hf).2, hd⟩)
    (fun hx => (scoped_one rfl).2 ⟨naming_nil rfl, hx⟩) id
  target how _ _ _ _ hE hf hd := h.target how hE ((scoped_one rfl).1 hf).2 hd
  stmt _ _ _ _ _ hE hf hr := h.stmt hE ((scoped_one rfl).1 hf).2 hr
  body _ _ _ _ _ hE hf hr := h.body hE ((scoped_one rfl).1 hf).2 hr

theorem WellScoped.annot {name : String} : WellScoped R (.annot loc type name inner) where
  value := valueScoped_around h (fun hf hd => ⟨((scoped_one rfl).1 hf).2, hd⟩)
    (fun hx => (scoped_one rfl).2 ⟨naming_nil rfl, hx⟩) id
  target how _ _ _ _ hE hf hd := h.target how hE ((scoped_one rfl).1 hf).2 hd
  stmt _ _ _ _ _ hE hf hr := h.stmt hE ((scoped_one rfl).1 hf).2 hr
  body _ _ _ _ _ hE hf hr := h.body hE ((scoped_one rfl).1 hf).2 hr

/-- Such a node, where its value stands for a value. -/
theorem WellScoped.ofInner {f : Expr → Expr}
    (hplain : ∀ x, (f x).plainChildren = some [x]) (ho : (f inner.source).operands = [inner.source])
    (hf : ∀ x, (f x).vars = [] ∧ (f x).declares = []) :
    WellScoped R (.ofValue (f inner.source) (do
      let h ← inner.value
      return ⟨h.stmts, f h.value⟩)) := by
  refine .ofValue (hf _).2 (valueScoped_around h (fun he _ => ?_) (fun hx => ?_) fun _ => (hf _).2)
  · have he := (scoped_one (hplain _)).1 he
    exact he.1.operand (ho ▸ mem_cons_self) he.2
  · exact (scoped_one (hplain _)).2 ⟨naming_nil (hf _).1, hx⟩

theorem WellScoped.cast {checked : Option TypePath} : WellScoped R (.cast loc type checked inner) :=
  h.ofInner (fun _ => rfl) rfl fun _ => ⟨rfl, rfl⟩

theorem WellScoped.enumParam {ctor : String} {slot : UInt32} :
    WellScoped R (.enumParam loc type ctor slot inner) :=
  h.ofInner (f := fun x => .enumParam loc type x ctor slot) (fun _ => rfl) rfl fun _ => ⟨rfl, rfl⟩

theorem WellScoped.enumIndex : WellScoped R (.enumIndex loc inner) :=
  h.ofInner (fun _ => rfl) rfl fun _ => ⟨rfl, rfl⟩

end

end Wrapper

/-! ## Literals and calls -/

theorem valueScoped_operands {ls : List Lowering} {f : List Expr → Expr}
    (hls : ∀ l ∈ ls, WellScoped R l)
    (ho : ∀ {V B E n}, Fits R V B n E e → ∀ l ∈ ls, Operand R V B n E l.source)
    (hf : ∀ {V E n vs}, (∀ v ∈ vs, Obeys R V n E v) → Obeys R V n E (f vs))
    (hd : ∀ vs, (f vs).declares = []) :
    ValueScoped R e (do
      let (stmts, values) ← operands (ls.map Lowering.value)
      return ⟨stmts, f values⟩) := by
  intro V B E s hE he _
  exact (gives_operands_leaves hls hE (ho he)).bind fun ⟨stmts, values⟩ s₁ h =>
    gives_pure ⟨h.before, hf h.keeps, hd values⟩

section Operands

variable {loc : Loc} {type : Ty} {args : List Lowering}

theorem WellScoped.object {fields : List (FieldInit Lowering)}
    (h : ∀ f ∈ fields, WellScoped R f.value) : WellScoped R (.object loc type fields) := by
  refine .ofValue rfl ?_
  have hvalue : ValueScoped R (.object loc type (fields.map fun f => ⟨f.name, f.value.source⟩)) (do
        let (stmts, values) ← operands ((fields.map FieldInit.value).map Lowering.value)
        return ⟨stmts, .object loc type (fields.zipWith (fun f v => ⟨f.name, v⟩) values)⟩) := by
    refine valueScoped_operands
      (f := fun vs => .object loc type (fields.zipWith (fun f v => ⟨f.name, v⟩) vs))
      (forall_mem_map.2 h) (fun {V B E n} hf => ?_) (fun {V E n vs} hvs => ?_) fun _ => rfl
    · refine forall_mem_map.2 fun f hmem => Fits.operand hf rfl rfl ?_
      exact mem_map_of_mem (f := FieldInit.value) (mem_map_of_mem hmem)
    · refine scoped_object.2 ⟨naming_nil rfl, fun f hmem => ?_⟩
      obtain ⟨i, hi, rfl⟩ := mem_iff_getElem.1 hmem
      rw [length_zipWith] at hi
      rw [getElem_zipWith]
      exact hvs _ (getElem_mem (by omega))
  rwa [map_map] at hvalue

theorem WellScoped.array (h : ∀ a ∈ args, WellScoped R a) : WellScoped R (.array loc type args) := by
  refine .ofValue rfl (valueScoped_operands h (fun hf a ha => ?_)
    (fun hvs => (scoped_plain rfl).2 ⟨naming_nil rfl, hvs⟩) fun _ => rfl)
  exact Fits.operand hf rfl rfl (mem_map_of_mem ha)

theorem WellScoped.new {cls : TypePath} {ctorType : Ty} (h : ∀ a ∈ args, WellScoped R a) :
    WellScoped R (.new loc type cls ctorType args) := by
  refine .ofValue rfl (valueScoped_operands h (fun hf a ha => ?_)
    (fun hvs => (scoped_plain rfl).2 ⟨naming_nil rfl, hvs⟩) fun _ => rfl)
  exact Fits.operand hf rfl rfl (mem_map_of_mem ha)

theorem operand_args {callee : Expr}
    (hf : Fits R V B n E (.call loc type callee (args.map source))) :
    ∀ a ∈ args, Operand R V B n E a.source := by
  exact fun a ha => Fits.operand hf rfl rfl (.tail _ (mem_map_of_mem ha))

/-- The receiver is taken with the arguments. -/
theorem WellScoped.callMember {memberLoc : Loc} {memberType : Ty} {receiver : Option Lowering}
    (hr : ∀ r ∈ receiver, WellScoped R r) (ha : ∀ a ∈ args, WellScoped R a) :
    WellScoped R (.callMember loc type memberLoc memberType ref receiver args) := by
  refine .ofValue rfl ?_
  cases receiver with
  | none =>
    refine valueScoped_operands ha (fun hf => operand_args hf) (fun hvs => ?_) ?_
    · exact scoped_call.2 ⟨naming_nil rfl, obeys_field_none, hvs⟩
    · exact fun _ => rfl
  | some r =>
    have hls : ∀ l ∈ r :: args, WellScoped R l := forall_mem_cons.2 ⟨hr r rfl, ha⟩
    refine valueScoped_operands (f := fun vs => .call loc type
      (.field memberLoc memberType ref (some (vs.headD .omitted))) vs.tail) hls
      (fun hf => ?_) (fun hvs => ?_) fun _ => rfl
    · have hmember := (scoped_call.1 hf).2.1
      exact forall_mem_cons.2 ⟨Fits.operand hmember rfl rfl mem_cons_self, operand_args hf⟩
    · have hvs := forall_headD hvs obeys_omitted
      exact scoped_call.2 ⟨naming_nil rfl, obeys_field hvs.1, hvs.2⟩

theorem WellScoped.call {callee : Lowering}
    (hc : WellScoped R callee) (ha : ∀ a ∈ args, WellScoped R a) :
    WellScoped R (.call loc type callee args) := by
  refine .ofValue rfl ?_
  have hleaf {e : Expr} (he : e.plainChildren = some []) (hv : e.vars = []) {V E n vs}
      (hvs : ∀ v ∈ vs, Obeys R V n E v) : Obeys R V n E (.call loc type e vs) :=
    scoped_call.2 ⟨naming_nil rfl, (scoped_leaf he).2 (naming_nil hv), hvs⟩
  -- a callee that is an identifier or a constant stays as it is
  split
  · rename_i heq
    rw [heq]
    exact valueScoped_operands ha (fun hf => operand_args hf) (hleaf rfl rfl) fun _ => rfl
  · rename_i heq
    rw [heq]
    exact valueScoped_operands ha (fun hf => operand_args hf) (hleaf rfl rfl) fun _ => rfl
  · have hls : ∀ l ∈ callee :: args, WellScoped R l := forall_mem_cons.2 ⟨hc, ha⟩
    refine valueScoped_operands (f := fun vs => .call loc type (vs.headD .omitted) vs.tail) hls
      (fun hf => ?_) (fun hvs => ?_) fun _ => rfl
    · exact forall_mem_cons.2 ⟨Fits.operand hf rfl rfl mem_cons_self, operand_args hf⟩
    · have hvs := forall_headD hvs obeys_omitted
      exact scoped_call.2 ⟨naming_nil rfl, hvs.1, hvs.2⟩

end Operands

/-- The parameters are in scope of the body only. -/
theorem WellScoped.function {params : List (Param Expr)} {result : Ty} {body : Option Lowering}
    (h : ∀ l ∈ body, WellScoped R l) :
    WellScoped R (.function loc type params result body) := by
  refine .ofValue rfl ?_
  intro V B E s hE hf _
  obtain ⟨⟨hdeclares, hsource⟩, hdefaults, hbody⟩ := scoped_function.1 hf
  have hvars : (params.map fun p => { p with default := p.default.map Expr.retyped }).map
      Param.var = params.map Param.var := by
    rw [map_map]
    rfl
  -- the parameters with their default values, whatever the body
  have hfunction {m : Nat} (hle : s.next ≤ m) (body' : Option Expr)
      (hb : ∀ b ∈ body', Obeys R V m ((params.map Param.var).reverse ++ E) b) :
      Obeys R V m E (.function loc type
        (params.map fun p => { p with default := p.default.map Expr.retyped }) result body') := by
    refine scoped_function.2 ⟨⟨?_, ?_⟩, ?_, ?_⟩
    · rw [hvars]
      exact hdeclares
    · intro v hv
      rw [Expr.vars, hvars] at hv
      exact (hsource.names v hv).mono hle
    · rw [hvars]
      intro p' hp' d' hd'
      obtain ⟨p, hp, rfl⟩ := mem_map.1 hp'
      obtain ⟨d, hd, rfl⟩ := Option.map_eq_some_iff.1 hd'
      have hkept := Scoped.mono (hdefaults p hp d hd) fun _ hn => hn.names
      exact Obeys.mono ((recast_retyped d).keeps _ _ _ hkept) hle
    · rw [hvars]
      exact hb
  cases body with
  | none =>
    exact gives_pure ⟨before_nil, hfunction .refl none fun _ hb => absurd hb (Option.not_mem_none _), rfl⟩
  | some l =>
    have hE' : Around ((params.map Param.var).reverse ++ E) s := by
      refine hE.under .refl fun d hd ht => ?_
      rw [(hsource.binds d (mem_reverse.1 hd)).1] at ht
      cases ht
    refine ((h l rfl).body hE' (hbody _ rfl) receives_none).bind fun stmts s₁ hs => gives_pure ?_
    refine ⟨before_nil.mono .refl hs.1, hfunction hs.1 _ ?_, rfl⟩
    intro b hb
    rw [← Option.some.inj hb]
    exact scoped_block.2 ⟨naming_nil rfl, hs.2⟩

end Normalize.Scoping

end LuaBackend
