import LuaBackend.Proofs.Normalize.Prediction

/-!
# Trees that normalization leaves alone

A value is `Fixed` if taking it again gives the same value and needs no
statements; a statement `Stays` if running it again gives just that
statement. Nodes made of such parts are of the same kind: no decision that
lowering takes may ask for a temporary or rewrite the node.
-/

namespace LuaBackend.Normalize.Idempotence

open Expr Lowering List

variable {stmts : List Expr} {var : Var} {ref : MemberRef} {body : Expr}
variable {value : Norm Hoisted} {name : String} {op : BinaryOp}

def Unmoved (v : Expr) : Prop := (lower v).value = pure ⟨[], v⟩

/-- A value that lowering leaves alone wherever it stands. -/
structure Fixed (v : Expr) : Prop where
  value : Unmoved v
  quiet : v.hoists = false
  plain : v.bare.isBlockLike = false
  firm : v.isStable = true → v.isPure = true
  parts : ∀ p ∈ v.placeParts, Unmoved p ∧ p.hoists = false

/-- Lowering also leaves it alone as a place, unless a part has to be moved,
and as a statement, unless nobody can observe it. -/
structure Whole (v : Expr) : Prop extends Fixed v where
  target : ∀ how : Spill, (∀ p ∈ v.placeParts, how.needs p = false) →
    (lower v).target how = pure ⟨[], v⟩
  stmt : v.isPure = false → (lower v).stmt none = pure [v]

def Stays (st : Expr) : Prop := (lower st).stmt none = pure [st]

variable {loc : Loc} {type : Ty} {v w : Expr}

/-! ## Values -/

/-- A value that cannot be dropped stands as a statement. -/
theorem storeOrDrop_unmoved (loc : Loc) (hvalue : value = pure ⟨[], v⟩) (himpure : v.isPure = false) :
    storeOrDrop loc value none = pure [v] := by
  rw [storeOrDrop, hvalue, pure_bind]
  dsimp only
  rw [himpure]
  rfl

/-- A node that has no parts as a place. -/
theorem whole_ofValue (hlower : lower v = .ofValue v value) (hvalue : value = pure ⟨[], v⟩)
    (quiet : v.hoists = false) (plain : v.bare.isBlockLike = false)
    (firm : v.isStable = true → v.isPure = true) (parts : v.placeParts = []) : Whole v := by
  have hunmoved : Unmoved v := by
    rw [Unmoved, hlower]
    exact hvalue
  refine ⟨⟨hunmoved, quiet, plain, firm, ?_⟩, fun how _ => ?_, fun himpure => ?_⟩
  · rw [parts]
    exact nofun
  · rw [hlower]
    exact hvalue
  · rw [hlower]
    exact storeOrDrop_unmoved v.loc hvalue himpure

theorem whole_const {value : Const} : Whole (.const loc type value) :=
  whole_ofValue rfl rfl rfl rfl (fun _ => rfl) rfl

theorem whole_local : Whole (.local loc var) :=
  whole_ofValue rfl rfl rfl rfl (fun _ => rfl) rfl

theorem whole_typeRef {path : TypePath} : Whole (.typeRef loc type path) :=
  whole_ofValue rfl rfl rfl rfl (fun _ => rfl) rfl

theorem whole_ident : Whole (.ident loc type name) :=
  whole_ofValue rfl rfl rfl rfl nofun rfl

theorem whole_omitted : Whole .omitted :=
  whole_ofValue rfl rfl rfl rfl (fun _ => rfl) rfl

/-- A member of nothing, which is not a method to forward to. -/
theorem whole_field_none (href : ref.isForwarded = false) : Whole (.field loc type ref none) := by
  have hunmoved : fieldValue loc type ref none = pure ⟨[], .field loc type ref none⟩ := by
    rw [fieldValue, href]
    rfl
  refine ⟨⟨hunmoved, rfl, rfl, fun _ => rfl, nofun⟩, fun _ _ => rfl, ?_⟩
  exact nofun

/-- A member that is not forwarded to keeps its receiver. -/
theorem whole_field (hw : Fixed w) (href : ref.isForwarded = false)
    (hclosure : ref.access = .closure → w.isPure = true) (henum : ref.access ≠ .enumCtor) :
    Whole (.field loc type ref (some w)) := by
  have hspill : (decide (ref.access = .closure) && !w.isPure) = false := by
    by_cases hc : ref.access = .closure
    · rw [hclosure hc, Bool.not_true, Bool.and_false]
    · rw [decide_eq_false hc, Bool.false_and]
  have hunmoved : fieldValue loc type ref (some (lower w)) =
      pure ⟨[], .field loc type ref (some w)⟩ := by
    rw [fieldValue, hw.value, pure_bind, href]
    dsimp only
    rw [if_neg Bool.false_ne_true, hspill]
    rfl
  refine ⟨⟨hunmoved, ?_, rfl, fun hs => ?_, fun p hp => ?_⟩, fun how hparts => ?_,
    storeOrDrop_unmoved loc hunmoved⟩
  · rw [hoists, hw.quiet, href, Bool.false_or, if_neg Bool.false_ne_true, hspill]
  · exact absurd (of_decide_eq_true hs) henum
  · rw [mem_singleton.1 hp]
    exact ⟨hw.value, hw.quiet⟩
  · have hneed : how.needs w = false := hparts w (.head _)
    change fieldTarget loc type ref (some (lower w)) how = _
    rw [fieldTarget, hw.value, pure_bind]
    dsimp only
    rw [hneed]
    rfl

/-- Neither operand has to get out of the way of the other. -/
theorem operandPair_unmoved (hv : Unmoved v) (hw : Unmoved w) :
    operandPair (lower v).value (lower w).value = pure ([], v, w) := by
  rw [operandPair, hv, pure_bind, hw, pure_bind]
  rfl

theorem whole_index (hv : Fixed v) (hw : Fixed w) : Whole (.index loc type v w) := by
  have hunmoved : (index loc type (lower v) (lower w)).value = pure ⟨[], .index loc type v w⟩ := by
    change operandPair (lower v).value (lower w).value >>= _ = _
    rw [operandPair_unmoved hv.value hw.value, pure_bind]
  refine ⟨⟨hunmoved, ?_, rfl, nofun, fun p hp => ?_⟩, fun how hparts => ?_,
    storeOrDrop_unmoved loc hunmoved⟩
  · rw [hoists, hv.quiet, hw.quiet]
    rfl
  · rcases mem_cons.1 hp with rfl | hp
    · exact ⟨hv.value, hv.quiet⟩
    · rw [mem_singleton.1 hp]
      exact ⟨hw.value, hw.quiet⟩
  · have hneedv : how.needs v = false := hparts v mem_cons_self
    have hneedw : how.needs w = false := hparts w (.tail _ mem_cons_self)
    change indexTarget loc type (lower v) (lower w) how = _
    rw [indexTarget, operandPair_unmoved hv.value hw.value, pure_bind]
    dsimp only
    rw [hneedv, hneedw]
    rfl

theorem unmoved_around {inner : Expr} {f : Expr → Expr} (hi : Unmoved inner) :
    (do let h ← (lower inner).value; return ⟨h.stmts, f h.value⟩ : Norm Hoisted) =
      pure ⟨[], f inner⟩ := by
  rw [hi, pure_bind]

theorem fixed_paren (hv : Fixed v) : Fixed (.mkParen loc v) :=
  ⟨unmoved_around (f := .mkParen loc) hv.value, hv.quiet, hv.plain, hv.firm, nofun⟩

theorem fixed_annot (hv : Fixed v) : Fixed (.mkAnnot loc name v) :=
  ⟨unmoved_around (f := .mkAnnot loc name) hv.value, hv.quiet, hv.plain, hv.firm, nofun⟩

theorem whole_cast {checked : Option TypePath} (hv : Fixed v) :
    Whole (.cast loc type checked v) := by
  refine whole_ofValue ?_ (unmoved_around (f := .cast loc type checked) hv.value) hv.quiet rfl
    nofun rfl
  rw [lower, Lowering.cast, source_lower]

theorem whole_enumParam {ctor : String} {slot : UInt32} (hv : Fixed v) :
    Whole (.enumParam loc type v ctor slot) := by
  refine whole_ofValue ?_ (unmoved_around (f := fun v => .enumParam loc type v ctor slot) hv.value)
    hv.quiet rfl nofun rfl
  rw [lower, Lowering.enumParam, source_lower]

theorem whole_enumIndex (hv : Fixed v) : Whole (.enumIndex loc v) := by
  refine whole_ofValue ?_ (unmoved_around (f := .enumIndex loc) hv.value) hv.quiet rfl nofun rfl
  rw [lower, Lowering.enumIndex, source_lower]

theorem whole_unary {op : UnaryOp} {isPost : Bool} (hv : Fixed v) (hop : op.isStep = false) :
    Whole (.mkUnary loc op isPost v) := by
  have hunmoved : unaryValue loc (op.resultType v.type) op isPost (lower v) =
      pure ⟨[], .mkUnary loc op isPost v⟩ := by
    rw [unaryValue, hop, if_neg Bool.false_ne_true]
    exact unmoved_around (f := .mkUnary loc op isPost) hv.value
  refine ⟨⟨hunmoved, ?_, rfl, nofun, nofun⟩, fun _ _ => hunmoved, fun himpure => ?_⟩
  · rw [mkUnary, hoists, hop, hv.quiet]
    rfl
  · change unaryStmt loc (op.resultType v.type) op isPost (lower v) none = _
    rw [unaryStmt, hop, Bool.false_and, if_neg Bool.false_ne_true]
    exact storeOrDrop_unmoved loc hunmoved himpure

/-! ## Lists of values -/

section Lists

variable {vs : List Expr}

/-- No operand is moved, since none after it needs statements. -/
theorem operandsAfter_unmoved : ∀ {vs done : List Expr}, (∀ v ∈ vs, Unmoved v) →
    operandsAfter done ((vs.map lower).map Lowering.value) = pure ([], done ++ vs)
  | [], done, _ => by rw [append_nil]; rfl
  | v :: rest, done, h => by
    rw [forall_mem_cons] at h
    rw [map_cons, map_cons, operandsAfter, h.1, pure_bind]
    change operandsAfter (done ++ [v]) _ = _
    rw [operandsAfter_unmoved h.2, append_assoc]
    rfl

/-- Operands that are unmoved stay where they are. -/
theorem operands_unmoved (h : ∀ v ∈ vs, Unmoved v) :
    operands ((vs.map lower).map Lowering.value) = pure ([], vs) := operandsAfter_unmoved h

theorem unmoved_listed {f : List Expr → Expr} (h : ∀ v ∈ vs, Fixed v) : (do
    let (stmts, values) ← operands ((vs.map lower).map Lowering.value)
    return ⟨stmts, f values⟩ : Norm Hoisted) = pure ⟨[], f vs⟩ := by
  rw [operands_unmoved fun v hv => (h v hv).value, pure_bind]

/-- Fixed values are predicted to need no statements. -/
theorem quiet_list (h : ∀ v ∈ vs, Fixed v) : hoistsList vs = false :=
  hoistsList_eq_false.2 fun v hv => (h v hv).quiet

theorem map_source_lower (vs : List Expr) : (vs.map lower).map source = vs := by
  rw [← lowerList_eq_map]
  exact source_lowerList vs

theorem whole_array (h : ∀ v ∈ vs, Fixed v) : Whole (.array loc type vs) := by
  refine whole_ofValue ?_ (unmoved_listed (f := .array loc type) h) (quiet_list h) rfl nofun rfl
  rw [lower, lowerList_eq_map, Lowering.array, map_source_lower]

theorem whole_new {cls : TypePath} {ctorType : Ty} (h : ∀ v ∈ vs, Fixed v) :
    Whole (.new loc type cls ctorType vs) := by
  refine whole_ofValue ?_ (unmoved_listed (f := .new loc type cls ctorType) h) (quiet_list h) rfl
    nofun rfl
  rw [lower, lowerList_eq_map, Lowering.new, map_source_lower]

/-- The fields keep their names and values. -/
theorem whole_object {fields : List (FieldInit Expr)} (h : ∀ f ∈ fields, Fixed f.value) :
    Whole (.object loc type fields) := by
  have hvalues : ∀ v ∈ fields.map FieldInit.value, Fixed v := by
    intro v hv
    obtain ⟨f, hf, rfl⟩ := mem_map.1 hv
    exact h f hf
  have hzip : (lowerFields fields).zipWith (fun f v => (⟨f.name, v⟩ : FieldInit Expr))
      (fields.map FieldInit.value) = fields := by
    rw [lowerFields_eq_map, zipWith_map, zipWith_self, map_id']
  have hmap : (lowerFields fields).map (fun f => f.value.value) =
      ((fields.map FieldInit.value).map lower).map Lowering.value := by
    rw [lowerFields_eq_map, map_map, map_map, map_map]
    rfl
  have hunmoved : (do
      let (stmts, values) ← operands ((lowerFields fields).map fun f => f.value.value)
      return ⟨stmts, .object loc type
        ((lowerFields fields).zipWith (fun f v => ⟨f.name, v⟩) values)⟩ : Norm Hoisted) =
      pure ⟨[], .object loc type fields⟩ := by
    rw [hmap, operands_unmoved fun v hv => (hvalues v hv).value, pure_bind]
    dsimp only
    rw [hzip]
  refine whole_ofValue ?_ hunmoved (hoistsFields_eq_false.2 fun f hf => (h f hf).quiet) rfl nofun rfl
  rw [lower, Lowering.object, source_lowerFields]

/-- A call of a member takes its receiver, not the member. -/
theorem whole_callMember {memberLoc : Loc} {memberType : Ty} {receiver : Option Expr}
    (hr : ∀ r ∈ receiver, Unmoved r ∧ r.hoists = false) (h : ∀ v ∈ vs, Fixed v) :
    Whole (.call loc type (.field memberLoc memberType ref receiver) vs) := by
  have hlower : lower (.call loc type (.field memberLoc memberType ref receiver) vs) =
      .callMember loc type memberLoc memberType ref (receiver.map lower) (vs.map lower) := by
    rw [lower, lowerOption_eq_map, lowerList_eq_map]
  cases receiver with
  | none =>
    refine whole_ofValue (hlower.trans ?_) (unmoved_listed
      (f := .call loc type (.field memberLoc memberType ref none)) h) (quiet_list h) rfl
      (fun h => absurd h Bool.false_ne_true) rfl
    unfold callMember
    rw [map_source_lower]
    rfl
  | some r =>
    have hall : ∀ v ∈ r :: vs, Unmoved v :=
      forall_mem_cons.2 ⟨(hr r rfl).1, fun v hv => (h v hv).value⟩
    have hunmoved : (do
        let r ← operands (((r :: vs).map lower).map value)
        return ⟨r.1, .call loc type (.field memberLoc memberType ref
          (some (r.2.headD .omitted))) r.2.tail⟩ : Norm Hoisted) =
        pure ⟨[], .call loc type (.field memberLoc memberType ref (some r)) vs⟩ := by
      rw [operands_unmoved hall, pure_bind]
      rfl
    refine whole_ofValue (hlower.trans ?_) hunmoved ?_ rfl (fun h => absurd h Bool.false_ne_true) rfl
    · unfold callMember
      rw [map_source_lower, Option.map_some, Option.map_some, source_lower]
      rfl
    · rw [hoists, (hr r rfl).2, quiet_list h]
      rfl

/-- The callee is a member or a value of its own. -/
theorem whole_call (hv : Fixed v) (h : ∀ a ∈ vs, Fixed a) : Whole (.call loc type v vs) := by
  by_cases hfield : ∃ memberLoc memberType ref receiver,
      v = .field memberLoc memberType ref receiver
  · obtain ⟨memberLoc, memberType, ref, receiver, rfl⟩ := hfield
    exact whole_callMember (fun r hr => hv.parts r (Option.mem_toList.2 hr)) h
  · have hmember : ∀ memberLoc memberType ref receiver,
        v ≠ .field memberLoc memberType ref receiver :=
      fun memberLoc memberType ref receiver heq => hfield ⟨_, _, _, _, heq⟩
    have hquiet : (Expr.call loc type v vs).hoists = false := by
      rw [hoists_call hmember, hv.quiet, quiet_list h]
      rfl
    have hlower : lower (.call loc type v vs) =
        .ofValue (.call loc type v vs) (call loc type (lower v) (vs.map lower)).value := by
      rw [lower_call hmember]
      unfold Lowering.call
      rw [map_source_lower, source_lower]
      rfl
    refine whole_ofValue hlower ?_ hquiet rfl nofun rfl
    unfold Lowering.call
    rw [source_lower]
    split
    · exact unmoved_listed (f := .call loc type _) h
    · exact unmoved_listed (f := .call loc type _) h
    · have hall : ∀ a ∈ v :: vs, Fixed a := forall_mem_cons.2 ⟨hv, h⟩
      exact unmoved_listed (f := fun values => .call loc type (values.headD .omitted) values.tail) hall

end Lists

theorem whole_binary (hv : Fixed v) (hw : Fixed w) (hop : op.isMutating = false) :
    Whole (.binary loc type op v w) := by
  have hassign : op.isAssignment = false := by
    cases op with
    | assign | compound => cases hop
    | _ => rfl
  have hlower : lower (.binary loc type op v w) =
      .ofValue (.binary loc type op v w) (binaryValue loc type op (lower v) (lower w)) := by
    rw [lower, Lowering.binary, hassign, if_neg Bool.false_ne_true, source_lower, source_lower]
  have hquiet : (Expr.binary loc type op v w).hoists = false := by
    rw [hoists, hop, hv.quiet, hw.quiet]
    rfl
  have hshort : shortCircuit loc type op (lower v) (lower w) =
      pure ⟨[], .binary loc type op v w⟩ := by
    rw [shortCircuit, hv.value, pure_bind, source_lower, hw.quiet, if_neg Bool.false_ne_true,
      hw.value, pure_bind]
    rfl
  have hpair : operation loc type op (lower v) (lower w) = pure ⟨[], .binary loc type op v w⟩ := by
    rw [operation, operandPair_unmoved hv.value hw.value, pure_bind]
  refine whole_ofValue hlower ?_ hquiet rfl (fun h => absurd h Bool.false_ne_true) rfl
  unfold binaryValue
  split
  · cases hop
  · cases hop
  · cases hop
  · exact hshort
  · exact hshort
  · exact hpair

/-- A pure part does not have to be moved. -/
theorem needs_impure {how : Spill} {p : Expr} (hhow : how ≠ .unstable)
    (hp : how = .impure → p.isPure = true) : how.needs p = false := by
  cases how with
  | none => rfl
  | impure =>
    change (!p.isPure) = false
    rw [hp rfl]
    rfl
  | unstable => exact absurd rfl hhow

/-- An assignment stays if no part of its place would have to be moved. -/
theorem stays_assign (hop : op.isAssignment = true) (hv : Whole v) (hw : Fixed w)
    (hparts : op ≠ .assign ∨ w.isPure = false → ∀ p ∈ v.placeParts, p.isPure = true) :
    Stays (.binary loc type op v w) := by
  have hhow : assignSpill op w ≠ .unstable ∧
      (assignSpill op w = .impure → op ≠ .assign ∨ w.isPure = false) := by
    unfold assignSpill
    rw [hw.quiet, if_neg Bool.false_ne_true]
    split
    · rename_i himpure
      refine ⟨by decide, fun _ => ?_⟩
      rcases Bool.or_eq_true_iff.1 himpure with hne | himpure
      · exact .inl (of_decide_eq_true hne)
      · exact .inr (Bool.not_eq_true' _ ▸ himpure)
    · exact ⟨by decide, nofun⟩
  have hplace : (lower v).target (assignSpill op w) = pure ⟨[], v⟩ :=
    hv.target _ fun p hp => needs_impure hhow.1 fun h => hparts (hhow.2 h) p hp
  have hassignment : assignment loc type op (lower v) (lower w) =
      pure ⟨[.binary loc type op v w], v⟩ := by
    rw [assignment, source_lower, hw.plain, Bool.and_false, if_neg Bool.false_ne_true, hplace,
      pure_bind, hw.value, pure_bind]
    rfl
  have hlower : (lower (.binary loc type op v w)).stmt none =
      assignStmt loc type op (lower v) (lower w) none := by
    rw [lower, Lowering.binary, hop]
    rfl
  rw [Stays, hlower, assignStmt, hassignment, pure_bind]

theorem stays_varDecl_none : Stays (.varDecl loc var none) := rfl

/-- A declaration with a fixed value. -/
theorem stays_varDecl (hv : Fixed v) : Stays (.varDecl loc var (some v)) := by
  change (do
    if (lower v).source.bare.isBlockLike then
      let stmts ← (lower v).stmt (some (.local loc var))
      return Expr.varDecl loc var none :: stmts
    else
      let h ← (lower v).value
      return h.stmts ++ [.varDecl loc var (some h.value)] : Norm (List Expr)) = _
  rw [source_lower, hv.plain, if_neg Bool.false_ne_true, hv.value, pure_bind]
  rfl

theorem stays_ret_none : Stays (.ret loc none) := rfl

theorem stays_ret (hv : Fixed v) : Stays (.ret loc (some v)) := by
  change (do
    let h ← (lower v).value
    return h.stmts ++ [.ret loc (some h.value)] : Norm (List Expr)) = _
  rw [hv.value, pure_bind]
  rfl

theorem stays_throw (hv : Fixed v) : Stays (.throw loc v) := by
  change (do
    let h ← (lower v).value
    return h.stmts ++ [.throw loc h.value] : Norm (List Expr)) = _
  rw [hv.value, pure_bind]
  rfl

theorem stays_brk : Stays (.brk loc) := rfl

theorem stays_cont : Stays (.cont loc) := rfl

def StaysAll (stmts : List Expr) : Prop := ∀ st ∈ stmts, Stays st

theorem sequence_stays : ∀ {stmts : List Expr}, StaysAll stmts →
    sequence none (stmts.map lower) = pure stmts
  | [], _ => rfl
  | [st], h => h st (.head _)
  | st :: next :: rest, h => by
    have hst : Stays st := h st mem_cons_self
    have hnext : StaysAll (next :: rest) := fun x hx => h x (.tail _ hx)
    have hrest := sequence_stays hnext
    rw [map_cons] at hrest
    rw [map_cons, map_cons, Lowering.sequence, hst, pure_bind, hrest, pure_bind]
    rfl

/-- A block of statements that stay has them as its body. -/
theorem body_statements (h : StaysAll stmts) :
    (lower (.statements loc stmts)).body none = pure stmts := by
  change sequence none (lowerList stmts) = _
  rw [lowerList_eq_map]
  exact sequence_stays h

def Inert (part : Expr) : Prop := ∃ loc stmts, part = .statements loc stmts ∧ StaysAll stmts

theorem inert_statements (h : StaysAll stmts) :
    Inert (.statements loc stmts) := ⟨loc, stmts, rfl, h⟩

/-- Lowering such a part in its own scope gives it back. -/
theorem scope_inert {part : Expr} (h : Inert part) :
    scope (some (lower part)) none = pure part := by
  obtain ⟨loc, stmts, rfl, hstmts⟩ := h
  rw [scope, body_statements hstmts, pure_bind, source_lower]
  rfl

/-- A block that is not empty is not left out. -/
theorem stays_block (h : StaysAll stmts) (hne : stmts ≠ []) : Stays (.statements loc stmts) := by
  change (do
    let stmts ← sequence none (lowerList stmts)
    return if stmts.isEmpty then [] else [.statements loc stmts] : Norm (List Expr)) = _
  rw [lowerList_eq_map, sequence_stays h, pure_bind]
  cases stmts with
  | nil => exact absurd rfl hne
  | cons => rfl

/-- A function whose body is such a block. -/
theorem whole_function {params : List (Param Expr)} {result : Ty} {body : Option Expr}
    (hparams : ∀ p ∈ params, p.default.map retyped = p.default)
    (hbody : ∀ b ∈ body, Inert b) : Whole (.function loc type params result body) := by
  have hsame : params.map (fun p => { p with default := p.default.map retyped }) = params := by
    refine (map_congr_left fun p hp => ?_).trans (map_id params)
    rw [hparams p hp]
    rfl
  have hlower : lower (.function loc type params result body) =
      .ofValue (.function loc type params result body)
        (function loc type params result (body.map lower)).value := by
    rw [lower, lowerOption_eq_map, Lowering.function, ← lowerOption_eq_map, source_lowerOption]
    rfl
  refine whole_ofValue hlower ?_ rfl rfl (fun _ => rfl) rfl
  unfold Lowering.function
  rw [hsame]
  cases body with
  | none => rfl
  | some b =>
    obtain ⟨l, stmts, rfl, hstmts⟩ := hbody b rfl
    change (do
      let stmts ← (lower (.statements l stmts)).body none
      return ⟨[], .function loc type params result
        (some (.statements (lower (.statements l stmts)).source.loc stmts))⟩ : Norm Hoisted) = _
    rw [body_statements hstmts, pure_bind, source_lower]
    rfl

theorem stays_ite {onTrue : Expr} {onFalse : Option Expr} (hv : Fixed v) (ht : Inert onTrue)
    (hf : ∀ f ∈ onFalse, Inert f) : Stays (.ite loc .void v (some onTrue) onFalse) := by
  unfold Stays
  rw [lower, lowerOption, lowerOption_eq_map, Lowering.ite]
  change (lower v).value >>= _ = _
  rw [hv.value, pure_bind, scope_inert ht, pure_bind]
  cases onFalse with
  | none => rfl
  | some f =>
    rw [Option.map_some]
    dsimp only
    rw [scope_inert (hf f rfl), pure_bind]
    rfl

theorem stays_forIn (hv : Fixed v) (hb : Inert body) : Stays (.forIn loc var v (some body)) := by
  change (do
    let h ← (lower v).value
    let stmts ← scope (some (lower body)) none
    return h.stmts ++ [.forIn loc var h.value (some stmts)] : Norm (List Expr)) = _
  rw [hv.value, pure_bind, scope_inert hb, pure_bind]
  rfl

/-- The test is a value, so it needs no statements in the body. -/
theorem stays_loop {test : LoopTest} (hv : Fixed v) (hb : Inert body) :
    Stays (.loop loc test v (some body)) := by
  have hplain : plainLoop loc test (lower v) (some (lower body)) =
      pure [.loop loc test v (some body)] := by
    rw [plainLoop, hv.value, pure_bind, scope_inert hb, pure_bind]
  unfold Stays
  rw [lower, lowerOption]
  unfold Lowering.loop
  change (ite _ _ _ : Norm (List Expr)) = _
  rw [source_lower, hv.quiet, Bool.not_false, if_pos rfl, hplain]

/-- Handlers whose bodies are such blocks. -/
theorem handlers_inert : ∀ {hs : List (Handler Expr)}, (∀ h ∈ hs, ∃ b, h.body = some b ∧ Inert b) →
    handlers none (lowerHandlers hs) = pure hs
  | [], _ => rfl
  | ⟨var, body⟩ :: rest, h => by
    rw [forall_mem_cons] at h
    obtain ⟨⟨b, hbody, hb⟩, hrest⟩ := h
    obtain rfl : body = some b := hbody
    rw [lowerHandlers, lowerOption, handlers, scope_inert hb, pure_bind, handlers_inert hrest,
      pure_bind]

/-- A protected block and its handlers. -/
theorem stays_tryCatch {hs : List (Handler Expr)} (hb : Inert body)
    (hh : ∀ h ∈ hs, ∃ b, h.body = some b ∧ Inert b) :
    Stays (.tryCatch loc .void (some body) hs) := by
  change (do
    let stmts ← scope (some (lower body)) none
    let catches ← handlers none (lowerHandlers hs)
    return [.tryCatch loc .void (some stmts) catches] : Norm (List Expr)) = _
  rw [scope_inert hb, pure_bind, handlers_inert hh, pure_bind]

/-- The values of a case are not moved. -/
theorem caseValues_fixed : ∀ {vs : List Expr}, (∀ v ∈ vs, Fixed v) →
    caseValues (lowerList vs) = pure vs
  | [], _ => rfl
  | v :: rest, h => by
    rw [forall_mem_cons] at h
    rw [lowerList, caseValues, h.1.value, pure_bind]
    change (do return v :: (← caseValues (lowerList rest)) : Norm (List Expr)) = _
    rw [caseValues_fixed h.2, pure_bind]

/-- The case has fixed values and does what a block does. -/
structure FixedCase (c : Case Expr) : Prop where
  values : ∀ v ∈ c.values, Fixed v
  body : ∃ b, c.body = some b ∧ Inert b

theorem plainCases_fixed : ∀ {cs : List (Case Expr)}, (∀ c ∈ cs, FixedCase c) →
    plainCases none (lowerCases cs) = pure cs
  | [], _ => rfl
  | ⟨values, body⟩ :: rest, h => by
    rw [forall_mem_cons] at h
    obtain ⟨b, hbody, hb⟩ := h.1.body
    obtain rfl : body = some b := hbody
    have hvalues : caseValues (lowerList values) = pure values := caseValues_fixed h.1.values
    rw [lowerCases, lowerOption, plainCases, hvalues, pure_bind, scope_inert hb, pure_bind,
      plainCases_fixed h.2, pure_bind]

/-- A switch on a pure value is not made a chain of tests. -/
theorem stays_switch {cs : List (Case Expr)} {default : Option Expr} (hv : Fixed v)
    (hpure : v.isPure = true) (hc : ∀ c ∈ cs, FixedCase c) (hd : ∀ d ∈ default, Inert d) :
    Stays (.switch loc .void v cs default) := by
  have hquiet : (lowerCases cs).any (fun c => c.values.any fun v => v.source.hoists) = false := by
    rw [lowerCases_eq_map, any_map, any_eq_false]
    intro c hmem
    rw [Bool.not_eq_true, Function.comp_apply, any_map, any_eq_false]
    intro v hv
    rw [Function.comp_apply, source_lower, ((hc c hmem).values v hv).quiet]
    exact Bool.false_ne_true
  unfold Stays
  rw [lower, Lowering.switch]
  change (ite _ _ _ : Norm (List Expr)) = _
  rw [hquiet, if_neg Bool.false_ne_true, plainSwitch, hv.value, pure_bind]
  dsimp only
  rw [hpure]
  change plainCases none (lowerCases cs) >>= _ = _
  rw [plainCases_fixed hc, pure_bind]
  cases default with
  | none => rfl
  | some d =>
    rw [lowerOption]
    dsimp only
    rw [scope_inert (hd d rfl), pure_bind]
    rfl

end LuaBackend.Normalize.Idempotence
