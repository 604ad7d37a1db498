import LuaBackend.Proofs.Normalize.Discipline.Values

/-!
# Statements under a regimen

Blocks, branches, loops and switches keep to a regimen if their parts do,
and so does every tree (`disciplined_lower`).
-/

namespace LuaBackend.Normalize

open Lowering List

variable {R : Regimen}

namespace Disciplined

open Expr

variable {loc : Loc} {type : Ty} {e : Expr} {assignee : Option Expr}
variable {test : LoopTest}

/-! ## Statements -/

section Statements

variable {var : Var} {part : Lowering} {body : Option Lowering}

theorem jump (hplace : e.bare.isPlace = false) (he : e.hoists = true) (htype : e.type = .void)
    (h : R.stmt e) : Disciplined R (.jump e) :=
  ofStmt hplace he (.inr htype) fun _ _ => makes_pure (forall_mem_singleton.2 h)

theorem stmtAround (f : Expr → Expr) (h : Disciplined R part) (hf : ∀ v, R.value v → R.stmt (f v)) :
    Makes R (do let h ← part.value; return h.stmts ++ [f h.value]) R.Stmts :=
  h.value.bind fun _ hx => makes_pure (stmts_snoc hx.stmts (hf _ hx.value))

theorem ret (h : ∀ v ∈ body, Disciplined R v) : Disciplined R (.ret loc body) := by
  cases body with
  | none =>
    exact ofStmt rfl rfl (.inr rfl) fun _ _ =>
      makes_pure (forall_mem_singleton.2 (R.stmt_ret forall_mem_none))
  | some v =>
    exact ofStmt rfl rfl (.inr rfl) fun _ _ => stmtAround (.ret loc <| some ·) (h v rfl) fun _ hv =>
      R.stmt_ret (forall_mem_some hv)

theorem throw (h : Disciplined R part) : Disciplined R (.throw loc part) :=
  ofStmt rfl rfl (.inr rfl) fun _ _ => stmtAround (.throw loc) h fun _ => R.stmt_throw

/-- A block stores into the declared local. -/
theorem varDecl (hvar : R.word (.var var)) (h : ∀ i ∈ body, Disciplined R i) :
    Disciplined R (.varDecl loc var body) := by
  have hplain : R.stmt (.varDecl loc var none) := R.stmt_varDecl hvar forall_mem_none
  cases body with
  | none =>
    exact ofStmt rfl rfl (.inr rfl) fun _ _ => makes_pure (forall_mem_singleton.2 hplain)
  | some i =>
    refine ofStmt rfl rfl (.inr rfl) fun _ _ => ?_
    split
    · exact ((h i rfl).stmt _ (forall_mem_some (R.place_local hvar))).bind fun _ hs =>
        makes_pure (forall_mem_cons.2 ⟨hplain, hs⟩)
    · exact stmtAround (.varDecl loc var <| some ·) (h i rfl) fun _ hv =>
        R.stmt_varDecl hvar (forall_mem_some hv)

/-- The last statement of a sequence takes the assignee. -/
theorem sequence (ha : ∀ p ∈ assignee, R.place .unstable p) :
    ∀ {ls : List Lowering}, (∀ l ∈ ls, Disciplined R l) → Makes R (sequence assignee ls) R.Stmts
  | [], _ => makes_pure nofun
  | [_], h => (forall_mem_singleton.1 h).stmt assignee ha
  | _ :: _ :: _, h => by
    obtain ⟨hfirst, hrest⟩ := forall_mem_cons.1 h
    exact (hfirst.stmt none nofun).bind fun _ hs => (sequence ha hrest).bind fun _ hs' =>
      makes_pure (forall_mem_append.2 ⟨hs, hs'⟩)

/-- An empty block has the value null. -/
theorem block {exprs : List Lowering} (hempty : exprs = [] → R.types.like type (.nullable .dynamic))
    (h : ∀ e ∈ exprs, Disciplined R e) : Disciplined R (.block loc type exprs) := by
  have hstmt (assignee : Option Expr) (ha : ∀ p ∈ assignee, R.place .unstable p) : Makes R (do
        let stmts ← Lowering.sequence assignee exprs
        return if stmts.isEmpty then [] else [Expr.statements loc stmts]) R.Stmts := by
    refine (sequence ha h).bind fun stmts hs => makes_pure ?_
    split
    · exact nofun
    · rename_i hne
      exact forall_mem_singleton.2 (R.stmt_block hs fun hnil => hne (by rw [hnil]; rfl))
  have hvalue : Makes R (Lowering.block loc type exprs).value
      (R.Node (.block loc type (exprs.map source))) := by
    unfold Lowering.block
    split
    · rename_i hnil
      exact makes_pure (R.node rfl nofun R.whole_const rfl (hempty (isEmpty_iff.1 hnil))
        (quiet_of_hoists rfl))
    · exact valueOfStmts rfl rfl hstmt
  exact ⟨(ofValue hvalue).value, (ofValue hvalue).target, hstmt, fun _ ha => sequence ha h⟩

theorem ite {onTrue onFalse : Option Lowering} (hc : Disciplined R part)
    (ht : ∀ t ∈ onTrue, Disciplined R t) (hf : ∀ f ∈ onFalse, Disciplined R f) :
    Disciplined R (.ite loc type part onTrue onFalse) := by
  refine ofStmt rfl rfl (.inl rfl) fun assignee ha => hc.value.bind fun c hc =>
    (scope ht ha).bind fun t ht => ?_
  cases onFalse with
  | none => exact makes_pure (stmts_snoc hc.stmts (R.stmt_ite hc.value ht forall_mem_none))
  | some f =>
    exact (scope hf ha).bind fun f hf =>
      makes_pure (stmts_snoc hc.stmts (R.stmt_ite hc.value ht (forall_mem_some hf)))

theorem forIn (hvar : R.word (.var var)) (hi : Disciplined R part)
    (hb : ∀ b ∈ body, Disciplined R b) : Disciplined R (.forIn loc var part body) :=
  ofStmt rfl rfl (.inr rfl) fun _ _ => hi.value.bind fun _ hx =>
    (scope hb forall_mem_none).bind fun _ hs =>
      makes_pure (stmts_snoc hx.stmts (R.stmt_forIn hvar hx.value hs))

/-- The bodies of the handlers take the assignee. -/
theorem handlers (ha : ∀ p ∈ assignee, R.place .unstable p) :
    ∀ {handlers : List (Handler Lowering)},
      (∀ h ∈ handlers, R.word (.var h.var) ∧ ∀ b ∈ h.body, Disciplined R b) →
      Makes R (Lowering.handlers assignee handlers) fun hs =>
        ∀ h ∈ hs, R.word (.var h.var) ∧ ∃ b, h.body = some b ∧ R.scope b
  | [], _ => makes_pure nofun
  | ⟨_, _⟩ :: _, h => by
    obtain ⟨hfirst, hrest⟩ := forall_mem_cons.1 h
    exact (scope hfirst.2 ha).bind fun b hs => (handlers ha hrest).bind fun _ hhs =>
      makes_pure (forall_mem_cons.2 ⟨⟨hfirst.1, b, rfl, hs⟩, hhs⟩)

theorem tryCatch {catches : List (Handler Lowering)} (hb : ∀ b ∈ body, Disciplined R b)
    (hh : ∀ h ∈ catches, R.word (.var h.var) ∧ ∀ b ∈ h.body, Disciplined R b) :
    Disciplined R (.tryCatch loc type body catches) :=
  ofStmt rfl rfl (.inl rfl) fun _ ha => (scope hb ha).bind fun _ hs =>
    (handlers ha hh).bind fun _ hhs =>
      makes_pure (forall_mem_singleton.2 (R.stmt_tryCatch hs hhs))

theorem plainLoop (hc : Disciplined R part) (hb : ∀ b ∈ body, Disciplined R b) :
    Makes R (plainLoop loc test part body) R.Stmts := by
  refine hc.value.bind fun c hc => (scope hb forall_mem_none).bind fun _ hs => makes_pure ?_
  exact forall_mem_singleton.2 (R.stmt_loop hc.value hs)

theorem guard (h : Disciplined R part) : Disciplined R (.guard loc part) :=
  ite (unary ⟨nofun, fun _ => R.types.like_refl, nofun⟩ (paren (fun _ => id) h))
    (forall_mem_some (jump rfl rfl rfl R.stmt_brk)) nofun

/-- The guard of later rounds clears the temporary of the first. -/
theorem guardAfterFirst (hvar : R.word (.var var)) (hlike : R.types.like .bool var.type)
    (h : Disciplined R part) : Disciplined R (.guardAfterFirst loc var part) :=
  have hclear {r : Ty} : OperatorRule R.types.like R.types.made loc .bool .assign var.type r :=
    ⟨fun _ _ => R.types.made_plain (.inl rfl), fun _ => R.types.like_trans hlike, nofun, nofun⟩
  ite (localVar hvar) (forall_mem_some (binary (fun _ => R.assignable_local) hclear (localVar hvar)
    const)) (forall_mem_some (guard h))

theorem guardedLoop (ht : Disciplined R part) (hb : ∀ b ∈ body, Disciplined R b) :
    Makes R (guardedLoop loc part body) R.Stmts := by
  refine plainLoop const (forall_mem_some (block nofun ?_))
  exact forall_mem_cons.2 ⟨ht, fun b hmem => hb b (Option.mem_toList.1 hmem)⟩

/-- A condition with statements goes into a guard. -/
theorem loop (hc : Disciplined R part) (hb : ∀ b ∈ body, Disciplined R b) :
    Disciplined R (.loop loc test part body) := by
  refine ofStmt rfl rfl (.inr rfl) fun _ _ => ?_
  split
  · exact plainLoop hc hb
  -- Otherwise the condition is tested inside the loop, and a temporary tells the first round.
  · cases test with
    | before => exact guardedLoop (guard hc) hb
    | after =>
      refine (temp _).bind fun t ht => ?_
      refine (guardedLoop (guardAfterFirst ht.1 ht.2 hc) hb).bind fun _ hs => makes_pure ?_
      exact forall_mem_cons.2 ⟨R.stmt_varDecl ht.1 (forall_mem_some value_const), hs⟩

end Statements

/-! ## Switches -/

section Switches

variable {subject : Lowering} {cases : List (Case Lowering)} {default : Option Lowering} {var : Var}

/-- Case values predicted to need no statements are not refused. -/
theorem caseValues : ∀ {values : List Lowering}, (∀ v ∈ values, Disciplined R v) →
    (∀ v ∈ values, v.source.hoists = false) →
      Makes R (caseValues values) fun vs => ∀ v ∈ vs, R.value v
  | [], _, _ => makes_pure nofun
  | _ :: _, h, hn => by
    rw [forall_mem_cons] at h hn
    refine h.1.value.bind fun x hx => ?_
    rw [if_pos (by rw [(hx.quiet hn.1).stmts]; rfl)]
    exact (caseValues h.2 hn.2).bind fun _ hvs =>
      makes_pure (forall_mem_cons.2 ⟨hx.value, hvs⟩)

theorem plainCases (ha : ∀ p ∈ assignee, R.place .unstable p) : ∀ {cases : List (Case Lowering)},
    (∀ c ∈ cases, (∀ v ∈ c.values, Disciplined R v) ∧ ∀ b ∈ c.body, Disciplined R b) →
    (∀ c ∈ cases, ∀ v ∈ c.values, v.source.hoists = false) →
      Makes R (plainCases assignee cases) fun cs =>
        ∀ c ∈ cs, (∀ v ∈ c.values, R.value v) ∧ ∃ b, c.body = some b ∧ R.scope b
  | [], _, _ => makes_pure nofun
  | ⟨_, _⟩ :: _, h, hn => by
    rw [forall_mem_cons] at h hn
    refine (caseValues h.1.1 hn.1).bind fun _ hvs => (scope h.1.2 ha).bind fun b hs => ?_
    exact (plainCases ha h.2 hn.2).bind fun _ hcs =>
      makes_pure (forall_mem_cons.2 ⟨⟨hvs, b, rfl, hs⟩, hcs⟩)

/-- A switch without statements in its case values. -/
theorem plainSwitch (ha : ∀ p ∈ assignee, R.place .unstable p) (hs : Disciplined R subject)
    (hc : ∀ c ∈ cases, (∀ v ∈ c.values, Disciplined R v) ∧ ∀ b ∈ c.body, Disciplined R b)
    (hn : ∀ c ∈ cases, ∀ v ∈ c.values, v.source.hoists = false)
    (hd : ∀ d ∈ default, Disciplined R d) :
    Makes R (plainSwitch loc subject cases default assignee) R.Stmts := by
  refine hs.value.bind fun x hx => (spill hx.value).bind fun y hy => ?_
  refine (plainCases ha hc hn).bind fun cs hcs => ?_
  have hswitch {d : Option Expr} (hd : ∀ b ∈ d, R.scope b) :
      R.Stmts (x.stmts ++ y.stmts ++ [.switch loc .void y.value cs d]) :=
    stmts_snoc (forall_mem_append.2 ⟨hx.stmts, hy.stmts⟩)
      (R.stmt_switch hy.value (hy.pure fun hn => Bool.not_eq_false' _ ▸ hn) hcs hd)
  cases default with
  | none => exact makes_pure (hswitch forall_mem_none)
  | some => exact (scope hd ha).bind fun _ hd => makes_pure (hswitch (forall_mem_some hd))

theorem keeps_test {op : BinaryOp} {l r : Ty} (hop : op = .eq ∨ op = .or) :
    OperatorRule R.types.like R.types.made loc .bool op l r := by
  refine ⟨fun _ _ => R.types.made_plain (.inr hop), fun ha => ?_, fun _ => R.types.like_refl,
    fun ha => ?_⟩ <;> rcases hop with rfl | rfl <;> cases ha

/-- The test of a case: an equality or a disjunction of them. -/
theorem anyEqual (hvar : R.word (.var var)) {values : List Lowering}
    (h : ∀ v ∈ values, Disciplined R v) : Disciplined R (.anyEqual loc var values) := by
  have hequal {v : Lowering} (hv : Disciplined R v) : Disciplined R
      (.binary v.source.loc .bool .eq (.leaf (.local v.source.loc var)) v) :=
    binary nofun (keeps_test (.inl rfl)) (localVar hvar) hv
  cases values with
  | nil => exact const
  | cons first rest =>
    obtain ⟨hfirst, hrest⟩ := forall_mem_cons.1 h
    exact foldlRecOn rest _ (hequal hfirst) fun cond hcond v hv =>
      binary nofun (keeps_test (.inr rfl)) hcond (hequal (hrest v hv))

theorem branchChain (hvar : R.word (.var var)) (hd : ∀ d ∈ default, Disciplined R d) :
    ∀ {cases : List (Case Lowering)},
      (∀ c ∈ cases, (∀ v ∈ c.values, Disciplined R v) ∧ ∀ b ∈ c.body, Disciplined R b) →
      ∀ l ∈ branchChain loc type var default cases, Disciplined R l
  | [], _ => hd
  | ⟨values, body⟩ :: rest, h => by
    obtain ⟨hfirst, hrest⟩ := forall_mem_cons.1 h
    have hbody : Disciplined R (body.getD (.block loc .void [])) := by
      cases body with
      | none => exact block (fun _ => R.types.like_nothing rfl) nofun
      | some b => exact hfirst.2 b rfl
    exact forall_mem_some (ite (anyEqual hvar hfirst.1) (forall_mem_some hbody)
      (branchChain hvar hd hrest))

theorem chainedSwitch (ha : ∀ p ∈ assignee, R.place .unstable p) (hs : Disciplined R subject)
    (hc : ∀ c ∈ cases, (∀ v ∈ c.values, Disciplined R v) ∧ ∀ b ∈ c.body, Disciplined R b)
    (hd : ∀ d ∈ default, Disciplined R d) :
    Makes R (Lowering.chainedSwitch loc type subject cases default assignee) R.Stmts := by
  refine hs.value.bind fun x hx => (temp _).bind fun t ht => ?_
  have hdecl : R.Stmts (x.stmts ++ [.varDecl loc t (some x.value)]) :=
    stmts_snoc hx.stmts (R.stmt_varDecl ht.1 (forall_mem_some hx.value))
  have hchain : ∀ l ∈ Lowering.branchChain loc type t default cases, Disciplined R l :=
    branchChain ht.1 hd hc
  cases hl : Lowering.branchChain loc type t default cases with
  | none => exact makes_pure hdecl
  | some l =>
    exact ((hchain l hl).stmt assignee ha).bind fun _ hs =>
      makes_pure (forall_mem_append.2 ⟨hdecl, hs⟩)

theorem switch (hs : Disciplined R subject)
    (hc : ∀ c ∈ cases, (∀ v ∈ c.values, Disciplined R v) ∧ ∀ b ∈ c.body, Disciplined R b)
    (hd : ∀ d ∈ default, Disciplined R d) :
    Disciplined R (.switch loc type subject cases default) := by
  refine ofStmt rfl rfl (.inl rfl) fun assignee ha => ?_
  split
  · exact chainedSwitch ha hs hc hd
  · rename_i hn
    refine plainSwitch ha hs hc (fun c hmem v hv => ?_) hd
    rw [Bool.eq_false_iff]
    exact fun h => hn (any_eq_true.2 ⟨c, hmem, any_eq_true.2 ⟨v, hv, h⟩⟩)

end Switches

/-- Every way of making a lowering keeps to the regimen. -/
theorem compositional (R : Regimen) :
    Compositional (fun _ => True) fun l => R.source l.source → Disciplined R l where
  known _ := trivial
  omitted _ := leaf rfl R.whole_omitted rfl id
  const _ _ _ _ := const
  localVar _ _ h := localVar (R.source_word h (.head _))
  typeRef _ _ _ h := leaf rfl (R.whole_typeRef h) rfl id
  ident _ _ _ h := leaf rfl (R.whole_ident h) rfl id
  brk _ _ := jump rfl rfl rfl R.stmt_brk
  cont _ _ := jump rfl rfl rfl R.stmt_cont
  field _ _ _ _ hr h := field h fun r hmem => hr r hmem (R.source_part h (source_mem_toList hmem))
  index _ _ _ _ hb hp h :=
    index (hb (R.source_part h (.head _))) (hp (R.source_part h (.tail _ (.head _))))
  paren _ _ _ hi h := paren (fun _ => R.types.like_wrapped h (.head _))
    (hi (R.source_part h (.head _)))
  annot _ _ _ _ hi h := annot (fun _ => R.types.like_wrapped h (.head _))
    (hi (R.source_part h (.head _)))
  object _ _ _ hf h := object fun f hmem =>
    hf f hmem (R.source_part h (mem_map.2 ⟨_, mem_map_of_mem hmem, rfl⟩))
  array _ _ _ he h := array fun e hmem => he e hmem (R.source_part h (mem_map_of_mem hmem))
  callMember _ _ _ _ _ _ _ hr ha h :=
    have hmember := R.source_part h (.head _)
    callMember hmember (fun r hmem => hr r hmem (R.source_part hmember (source_mem_toList hmem)))
      fun a hmem => ha a hmem (R.source_part h (.tail _ (mem_map_of_mem hmem)))
  call _ _ _ _ hfield hc ha h :=
    have hcallee := R.source_part h (.head _)
    call hfield hcallee (hc hcallee) fun a hmem =>
      ha a hmem (R.source_part h (.tail _ (mem_map_of_mem hmem)))
  new _ _ _ _ _ ha h := new (R.source_word h (.head _)) fun a hmem =>
    ha a hmem (R.source_part h (mem_map_of_mem hmem))
  binary _ _ _ _ _ _ hl hr h := by
    rw [source_binary] at h
    exact binary (R.assignable_binary h) (R.types.binary h) (hl (R.source_part h (.head _)))
      (hr (R.source_part h (.tail _ (.head _))))
  unary _ _ _ _ _ ho h := unary ⟨R.assignable_unary h, R.types.like_unary h,
    R.types.made_step h⟩ (ho (R.source_part h (.head _)))
  function _ _ _ _ _ hb h := function h fun b hmem =>
    hb b hmem (R.source_part h (mem_append_right _ (source_mem_toList hmem)))
  varDecl _ _ _ hi h := by
    rw [source_varDecl] at h
    exact varDecl (R.source_word h (.head _)) fun i hmem =>
      hi i hmem (R.source_part h (source_mem_toList hmem))
  block _ _ _ he h := block (fun hnil => R.types.like_empty (by subst hnil; exact h))
    fun e hmem => he e hmem (R.source_part h (mem_map_of_mem hmem))
  forIn _ _ _ _ hi hb h := forIn (R.source_word h (.head _)) (hi (R.source_part h (.head _)))
    fun b hmem => hb b hmem (R.source_part h (.tail _ (source_mem_toList hmem)))
  ite _ _ _ _ _ hc ht hf h := ite (hc (R.source_part h (.head _)))
    (fun t hmem => ht t hmem (R.source_part h
      (.tail _ (mem_append_left _ (source_mem_toList hmem)))))
    fun f hmem => hf f hmem (R.source_part h
      (.tail _ (mem_append_right _ (source_mem_toList hmem))))
  loop _ _ _ _ _ hc hb h := loop (hc (R.source_part h (.head _))) fun b hmem =>
    hb b hmem (R.source_part h (.tail _ (source_mem_toList hmem)))
  switch _ _ _ cases _ hs _ hc hd h := by
    have hcase {c : Case Lowering} (hmem : c ∈ cases) {e : Expr}
        (he : e ∈ c.values.map source ++ (c.body.map source).toList) :
        R.source e :=
      R.source_part h (.tail _ (mem_append_left _ (mem_flatMap.2 ⟨_, mem_map_of_mem hmem, he⟩)))
    refine switch (hs (R.source_part h (.head _))) (fun c hmem => ⟨fun v hv => ?_, fun b hb => ?_⟩)
      fun d hmem => hd d hmem (R.source_part h
        (.tail _ (mem_append_right _ (source_mem_toList hmem))))
    · exact (hc c hmem).1 v hv (hcase hmem (mem_append_left _ (mem_map_of_mem hv)))
    · exact (hc c hmem).2 b hb (hcase hmem (mem_append_right _ (source_mem_toList hb)))
  ret _ _ hv h := by
    rw [source_ret] at h
    exact ret fun v hmem => hv v hmem (R.source_part h (source_mem_toList hmem))
  throw _ _ hv h := throw (hv (R.source_part h (.head _)))
  cast _ _ _ _ hi h := cast h (hi (R.source_part h (.head _)))
  tryCatch _ _ _ catches hb hh h := by
    rw [Lowering.tryCatch, Lowering.source_ofStmt] at h
    refine tryCatch
      (fun b hmem => hb b hmem (R.source_part h (mem_append_left _ (source_mem_toList hmem))))
      fun c hmem => ⟨R.source_word h (mem_append_left _ (mem_map_of_mem ?_)),
        fun b hb => hh c hmem b hb (R.source_part h (mem_append_right _ ?_))⟩
    · rw [vars, map_map]
      exact mem_map_of_mem hmem
    · exact mem_filterMap.2 ⟨_, mem_map_of_mem hmem, Option.mem_map_of_mem source hb⟩
  enumParam _ _ _ _ _ hv h := enumParam (hv (R.source_part h (.head _)))
  enumIndex _ _ hv h := enumIndex (hv (R.source_part h (.head _)))

end Disciplined

/-- **The lowering of every tree keeps to the regimen.** -/
theorem disciplined_lower {e : Expr} (h : R.source e) : Disciplined R (lower e) :=
  (Disciplined.compositional R).lower e ((source_lower e).symm ▸ h)

end LuaBackend.Normalize
