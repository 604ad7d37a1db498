import LuaBackend.Proofs.Emit.Written.Basic

/-!
# Written values

A value holds no label of the function that it stands in. The functions in
it are those of its parts and of function literals.
-/

namespace LuaBackend.Emit

open Emission List Expr

variable {T : Regime} {e : Expr} {scope : Scope} {k k' : Nat} {q : Prop}
variable {loc : Loc} {type : Ty}
variable {source : Expr} {op : BinaryOp} {value : EmitM Lua.Expr} {ref : MemberRef}
variable {home : Option UInt32} {followed : Bool} {stmt : Bool → EmitM Lua.Block} {lo hi : Nat}
variable {v : Lua.Expr} {fields : List (FieldInit Expr)} {body receiver : Option Expr}
variable {name : String} {params : List (Param Expr)} {nameLoc : Loc}

/-- A node with a value and a statement. -/
theorem Written.ofStmt (hemit : emit e = .ofStmt source value stmt)
    (hvalue : ∀ scope {q : Prop}, (q → T.value e) →
      Draws T q scope (demand e) value fun _ _ => SoundValue T e)
    (hstmt : ∀ scope last, Draws T (T.Stands scope e) scope (demand e) (stmt last)
      (Lands T (!last) scope.home (e.nest scope.inLoop))) : Written T e where
  value scope _ hq := by
    rw [hemit]
    exact hvalue scope hq
  receiver _ _ _ _ hact := by
    rw [hemit] at hact
    cases hact
  stmt := hemit ▸ hstmt
  body scope followed := by
    rw [hemit]
    have hbody := hstmt scope (!followed)
    rwa [Bool.not_not] at hbody
  orElse scope := by
    rw [hemit]
    exact (hstmt scope true).indented.map fun _ _ _ _ hcode => hcode.otherwise

/-- The value goes to a local that nobody reads. -/
theorem lands_discard (h : Sound T v) :
    Lands T followed home [] lo hi [.localVar Lua.discard (some v)] :=
  lands_still ⟨h.1, fun hs => ⟨T.brought hs _ (by decide), h.2 hs⟩⟩ rfl rfl

/-- A node that is a value: as a statement it is discarded. -/
theorem Written.ofValue (hemit : emit e = .ofValue source value)
    (hnest : ∀ inLoop, e.nest inLoop = [])
    (hvalue : ∀ scope {q : Prop}, (q → T.stmt e) →
      Draws T q scope (demand e) value fun _ _ => SoundValue T e) : Written T e := by
  refine .ofStmt hemit (fun scope _ hq => hvalue scope fun h => T.stmt_of_value (hq h)) ?_
  intro scope _
  rw [hnest]
  exact (hvalue scope And.right).map fun _ _ _ _ hv => lands_discard hv.sound

theorem Written.ofCall (hemit : emit e = .ofCall source value)
    (hnest : ∀ inLoop, e.nest inLoop = [])
    (hvalue : ∀ scope {q : Prop}, (q → T.stmt e) →
      Draws T q scope (demand e) value fun _ _ => SoundCall T) : Written T e := by
  refine .ofStmt hemit (fun scope _ hq => ?_) fun scope _ => ?_
  · exact (hvalue scope fun h => T.stmt_of_value (hq h)).imp fun _ _ _ hv => hv.head.value
  · rw [hnest]
    exact (hvalue scope And.right).map fun _ _ _ _ hv => lands_still hv rfl rfl

theorem Written.stmtOnly (hemit : emit e = .stmtOnly source stmt) (honly : e.isStatementOnly = true)
    (hstmt : ∀ scope last, Draws T (T.Stands scope e) scope (demand e) (stmt last)
      (Lands T (!last) scope.home (e.nest scope.inLoop))) : Written T e :=
  .ofStmt hemit (fun _ _ hq => draws_throw fun h => T.statement (hq h) honly) hstmt

theorem Written.sound (h : Written T e) (scope : Scope) (hq : q → T.value e) :
    Draws T q scope (demand e) (emit e).value fun _ _ => Sound T :=
  (h.value scope hq).imp fun _ _ _ hv => hv.sound

/-- Parentheses make a value one that can be accessed. -/
theorem Written.head (h : Written T e) (scope : Scope) (hq : q → T.value e) :
    Draws T q scope (demand e) (emit e).head fun _ _ => SoundHead T := by
  refine (h.value scope hq).map fun _ _ _ v hv => ?_
  rw [source_emit]
  split
  case isTrue hhead => exact ⟨hv.1, fun hs => ⟨(hv.2 hs).1 hhead, (hv.2 hs).2⟩⟩
  case isFalse => exact ⟨hv.1, fun hs => ⟨rfl, (hv.2 hs).2⟩⟩

theorem draws_operand {em : Emission} (parent : Nat) (tighter : Bool)
    (h : Draws T q scope k em.value fun _ _ => Sound T) :
    Draws T q scope k (em.operand parent tighter) fun _ _ => Sound T := by
  refine h.map fun _ _ _ v hv => ?_
  split <;> exact hv

theorem draws_values {es : List Expr} (h : ∀ e ∈ es, Written T e) (scope : Scope)
    (hq : q → ∀ e ∈ es, T.value e) :
    Draws T q scope (demandEach es).sum (values (emitList es)) fun _ _ => SoundAll T := by
  induction es generalizing q with
  | nil => exact draws_pure fun _ _ _ _ => soundAll_nil
  | cons e rest ih =>
    simp only [forall_mem_cons] at h hq
    exact (h.1.sound scope fun hv => (hq hv).1).then fun v =>
      (ih h.2 fun hv => (hq hv.1).2).map fun hv _ _ vs hvs => hv.2.cons hvs

theorem draws_fieldValues (h : ∀ e ∈ fields.map FieldInit.value, Written T e) (scope : Scope)
    (hq : q → ∀ e ∈ fields.map FieldInit.value, T.value e) :
    Draws T q scope (demandFields fields) (fieldValues (emitFields fields)) fun _ _ vs =>
      Lua.Expr.FieldsFunctions T.function vs ∧
        (T.spelled → Lua.Expr.FieldsFormed T.name T.place vs) := by
  induction fields generalizing q with
  | nil => exact draws_pure fun _ _ _ _ => ⟨trivial, fun _ => trivial⟩
  | cons f rest ih =>
    simp only [map_cons, forall_mem_cons] at h hq
    exact (h.1.sound scope fun hv => (hq hv).1).then fun v =>
      (ih h.2 fun hv => (hq hv.1).2).map fun hv _ _ vs hvs =>
        ⟨⟨hv.2.1, hvs.1⟩, fun hs => ⟨hv.2.2 hs, hvs.2 hs⟩⟩

/-- The body of a loop, a branch or a function. -/
theorem draws_bodyOf (h : ∀ e ∈ body.toList, Written T e) (followed : Bool) :
    Draws T (∀ e ∈ body.toList, T.Stands scope e) scope (demandOption body)
      (bodyOf (emitOption body) followed)
      (Lands T followed scope.home (nestPart scope.inLoop body)) := by
  cases body with
  | none => exact draws_pure fun _ _ _ _ => lands_nil
  | some e => exact ((h e (.head _)).body scope followed).under fun hquiet => hquiet e (.head _)

theorem written_const (loc : Loc) (type : Ty) (value : Const) :
    Written T (.const loc type value) := by
  refine .ofValue rfl (fun _ => rfl) fun scope _ _ => ?_
  cases value with
  | super => exact draws_misuse rfl
  | this => exact draws_pure fun _ _ _ _ => (soundHead_brought (by decide)).value
  | _ => exact draws_pure fun _ _ _ _ => Sound.value ⟨trivial, fun _ => trivial⟩ rfl

theorem Written.paren (h : Written T e) : Written T (.paren loc type e) where
  value scope _ hq := (h.value scope fun hv => T.value_wrapped (hq hv) (.head _)).map
    fun _ _ _ _ hv => ⟨hv.1, fun hs => ⟨fun _ => rfl, (hv.2 hs).2⟩⟩
  receiver scope _ hq := h.receiver scope fun hv => T.value_wrapped (hq hv) (.head _)
  stmt scope last := (h.stmt scope last).under fun hq => hq.wrapped (.head _) rfl
  body scope followed := (h.body scope followed).under fun hq => hq.wrapped (.head _) rfl
  orElse scope := (h.orElse scope).under fun hq => hq.wrapped (.head _) rfl

theorem Written.annot (h : Written T e) : Written T (.annot loc type name e) where
  value scope _ hq := h.value scope fun hv => T.value_wrapped (hq hv) (.head _)
  receiver scope _ hq := h.receiver scope fun hv => T.value_wrapped (hq hv) (.head _)
  stmt scope last := (h.stmt scope last).under fun hq => hq.wrapped (.head _) rfl
  body scope followed := (h.body scope followed).under fun hq => hq.wrapped (.head _) rfl
  orElse scope := (h.orElse scope).under fun hq => hq.wrapped (.head _) rfl

theorem Written.cast {checked : Option TypePath} (h : Written T e) :
    Written T (.cast loc type checked e) := by
  refine .ofValue rfl (fun _ => rfl) fun scope _ hq => ?_
  have hvalue := h.value scope fun hv => T.value_part (hq hv) (.head _)
  cases checked with
  | none => exact hvalue
  | some path =>
    refine hvalue.map fun hv _ _ _ hinner => ?_
    have hpath : SoundHead T (.name path.global) :=
      soundHead_name fun hs => T.path hs (hq hv) (.head _)
    exact (soundCall_brought "_hx_cast" (by decide)
      (hinner.sound.cons (hpath.sound.cons soundAll_nil))).head.value

theorem soundHead_bind {object method : Lua.Expr} (ho : Sound T object) (hm : Sound T method) :
    SoundHead T (Emission.bind object method) :=
  (soundCall_brought "_hx_bind" (by decide) (ho.cons (hm.cons soundAll_nil))).head

theorem soundHead_prototype (hb : T.spelled → Based T.name scope)
    (hbase : ¬scope.base.isEmpty = true) : SoundHead T (.name (prototype scope.base)) :=
  soundHead_dotted fun hs => by
    have hname : T.name "prototype" := T.brought hs _ (by decide)
    exact Lua.dotted_member (hb hs (Bool.eq_false_iff.2 hbase)) hname

/-- A member is read from a value, a class or the superclass. -/
theorem draws_fieldValue (h : ∀ e ∈ receiver.toList, Written T e) (scope : Scope)
    (hq : q → T.stmt (.field loc type ref receiver)) :
    Draws T q scope (demandOption receiver) (fieldValue loc ref (emitOption receiver))
      fun _ _ => SoundHead T := by
  unfold fieldValue
  split
  · rename_i hstatic
    split
    · exact draws_misuse rfl
    · refine draws_pure fun hv _ _ _ => (soundHead_name fun hs => T.path hs (hq hv) ?_).member
      rw [paths, if_pos hstatic]
      exact .head _
  · cases receiver with
    | none => exact draws_misuse rfl
    | some r =>
      have hself : SoundHead T (.name "self") := soundHead_brought (by decide)
      dsimp only [emitOption]
      split
      · refine draws_based (draws_read ?_)
        split
        · exact draws_misuse rfl
        · rename_i hbase
          split
          · exact draws_pure fun hb _ _ _ =>
              soundHead_bind hself.sound (soundHead_prototype hb.2 hbase).member.sound
          · exact draws_pure fun _ _ _ _ => hself.member
      · have hhead := (h r (.head _)).head scope fun hv => T.value_part (hq hv) (.head _)
        refine hhead.then fun object => (?_ : Draws _ _ scope 0 _ _)
        split
        · exact draws_pure fun hobject _ _ _ => hobject.2.key
        · exact draws_pure fun hobject _ _ _ =>
            soundHead_bind hobject.2.sound hobject.2.member.sound
        · exact draws_pure fun hobject _ _ _ => hobject.2.member

theorem written_field (h : ∀ e ∈ receiver.toList, Written T e) :
    Written T (.field loc type ref receiver) := by
  have hvalue (scope : Scope) {q : Prop} := @draws_fieldValue T q loc type ref receiver h scope
  have hstmt (scope : Scope) (last followed : Bool) :
      Draws T (T.Stands scope (.field loc type ref receiver)) scope (demandOption receiver)
        ((emit (.field loc type ref receiver)).stmt last) (Lands T followed scope.home []) :=
    (hvalue scope And.right).map fun _ _ _ _ hv => lands_discard hv.sound
  refine ⟨fun scope _ hq => ?_, fun scope _ hq act hact => ?_, fun scope _ => hstmt scope _ _,
    fun scope _ => hstmt scope true _,
    fun scope => (hstmt scope true true).indented.map fun _ _ _ _ hcode => hcode.otherwise⟩
  · exact (hvalue scope fun hv => T.stmt_of_value (hq hv)).imp fun _ _ _ hv => hv.value
  · cases receiver with
    | none => cases hact
    | some r =>
      cases hact
      exact (h r (.head _)).head scope fun hv => T.value_part (T.stmt_of_value (hq hv)) (.head _)

theorem Written.index {base position : Expr} (hb : Written T base) (hp : Written T position) :
    Written T (.index loc type base position) := by
  refine .ofValue rfl (fun _ => rfl) fun scope _ hq => ?_
  refine (hb.head scope fun hv => T.value_part (hq hv) (.head _)).then fun _ =>
    (hp.sound scope fun hv => ?_).map fun hobject _ _ _ hposition =>
      (hobject.2.index hposition).value
  exact T.value_part (hq hv.1) (.tail _ (.head _))

theorem draws_slot (h : Written T e) (scope : Scope) (slot : Int) (hq : q → T.value e) {n : Expr} :
    Draws T q scope (demand e) (do return .index (← (emit e).head) (.int slot))
      fun _ _ => SoundValue T n :=
  (h.head scope hq).map fun _ _ _ _ hobject =>
    (hobject.index sound_int).value

/-! ## Operators -/

/-- An operator is written by its rendering. -/
theorem draws_operation {lhs rhs : Emission} (type : Ty)
    (hop : q → op.isMutating = true → T.fault .operatorWithoutValue)
    (hl : Draws T q scope k lhs.value fun _ _ => Sound T)
    (hr : Draws T q scope k' rhs.value fun _ _ => Sound T) :
    Draws T q scope (k + k') (operation op type lhs rhs) fun _ _ => Sound T := by
  unfold operation
  split
  · rename_i hname
    refine hl.then fun _ => (hr.under And.left).map fun hv _ _ _ hw => ?_
    have hhelper := soundHead_dotted fun hs => dotted_helper (T.brought hs) hname
    exact (hhelper.call (hv.2.cons (hw.cons soundAll_nil))).head.sound
  · exact (draws_operand _ _ hl).then fun _ =>
      ((draws_operand _ _ hr).under And.left).map fun hv _ _ _ hw => hv.2.binary hw
  · rename_i hnone
    refine draws_throw fun hq => hop hq ?_
    exact (Bool.not_eq_false _).mp fun hop => rendering_ne_none hop _ _ _ hnone

/-- What is stored into is written as a place. -/
theorem Written.place {target : Expr} (h : Written T target) (scope : Scope)
    (hv : q → T.value target) (hq : q → T.stmt e) (ht : e.stored? = some target) :
    Draws T q scope (demand target) (emit target).value fun _ _ v =>
      Sound T v ∧ (T.spelled → T.place v) :=
  (h.sound scope fun hq => hv hq.1).ensuring fun hq' hs hb => T.stored hs (hq hq') ht hb

theorem lands_assign {place : Lua.Expr} (hp : Sound T place ∧ (T.spelled → T.place place))
    (hv : Sound T v) :
    Lands T followed home [] lo hi [.assign place v] :=
  lands_still ⟨⟨hp.1.1, hv.1⟩, fun hs => ⟨hp.2 hs, hp.1.2 hs, hv.2 hs⟩⟩ rfl rfl

/-- The place is written twice, and the operand once. -/
theorem draws_update {place operand : Emission} (type : Ty)
    (hop : q → op.isMutating = true → T.fault .operatorWithoutValue)
    (hp : Draws T q scope k place.value fun _ _ v => Sound T v ∧ (T.spelled → T.place v))
    (ho : Draws T q scope k' operand.value fun _ _ => Sound T) :
    Draws T q scope (k + (k + k')) (update op type place operand) (Lands T followed home []) :=
  hp.then fun _ => ((draws_operation type hop (hp.imp fun _ _ _ => And.left) ho).under
    And.left).map fun hplace _ _ _ hv => lands_assign hplace.2 hv

/-- An assignment is a statement only. -/
theorem Written.binary {lhs rhs : Expr} (hl : Written T lhs) (hr : Written T rhs) :
    Written T (.binary loc type op lhs rhs) := by
  have hvl (h : T.stmt (.binary loc type op lhs rhs)) : T.value lhs := T.value_part h (.head _)
  have hvr (h : T.stmt (.binary loc type op lhs rhs)) : T.value rhs :=
    T.value_part h (.tail _ (.head _))
  have hplace (scope : Scope) (hop : op.isAssignment = true) :=
    hl.place scope (fun hq : T.Stands scope (.binary loc type op lhs rhs) => hvl hq.2) And.right
      (if_pos hop)
  cases op with
  | assign =>
    refine .stmtOnly rfl rfl fun scope _ => (hplace scope rfl).then fun _ => ?_
    exact (hr.sound scope fun hq => hvr hq.1.2).map fun hplace _ _ _ hv => lands_assign hplace.2 hv
  | compound =>
    exact .stmtOnly rfl rfl fun scope _ => draws_update type (fun hq => T.operator hq.2)
      (hplace scope rfl) (hr.sound scope fun hq => hvr hq.2)
  | nullCoalesce => exact .stmtOnly rfl rfl fun _ _ => draws_throw fun hq => T.coalesce hq.2
  | _ =>
    exact .ofValue rfl (fun _ => rfl) fun scope _ hq =>
      (draws_operation type (fun _ hop => Bool.noConfusion hop) (hl.sound scope fun h => hvl (hq h))
        (hr.sound scope fun h => hvr (hq h))).imp fun _ _ _ hv => hv.value rfl

theorem Written.unary {op : UnaryOp} {isPost : Bool} (h : Written T e) :
    Written T (.unary loc type op isPost e) := by
  have hvalue (hq : T.stmt (.unary loc type op isPost e)) : T.value e := T.value_part hq (.head _)
  have hplace (scope : Scope) (hop : op.isStep = true) :=
    h.place scope (fun hq : T.Stands scope (.unary loc type op isPost e) => hvalue hq.2) And.right
      (if_pos hop)
  cases op with
  | not | neg =>
    exact .ofValue rfl (fun _ => rfl) fun scope _ hq => (draws_operand _ _
      (h.sound scope fun hv => hvalue (hq hv))).map fun _ _ _ v hv => Sound.value hv rfl
  | negBits =>
    refine .ofValue rfl (fun _ => rfl) fun scope _ hq =>
      (h.sound scope fun hv => hvalue (hq hv)).map fun _ _ _ _ hv => ?_
    have hname : SoundHead T (.name "_hx_bit.bnot") := soundHead_dotted fun hs =>
      Lua.dotted_member (T.brought hs "_hx_bit" (by decide)) (T.brought hs "bnot" (by decide))
    exact (hname.call (hv.cons soundAll_nil)).head.value
  | increment | decrement =>
    refine .stmtOnly rfl rfl fun scope _ => ?_
    have hone {q : Prop} :
        Draws T q scope 0 (Emission.const loc .int (.int 1)).value fun _ _ => Sound T :=
      draws_pure fun _ _ _ _ => sound_int
    exact draws_update _ (fun _ hop => Bool.noConfusion hop) (hplace scope rfl) hone

/-- A default is assigned where the argument is missing. -/
theorem draws_defaults (h : ∀ e ∈ params.filterMap Param.default, Written T e) (scope : Scope)
    (hq : q → ∀ e ∈ params.filterMap Param.default, T.value e)
    (hvars : q → T.spelled → ∀ v ∈ params.map Param.var, T.name (Lua.localName v)) :
    Draws T q scope (demandParams params) (defaults (emitParams params))
      (Lands T true home []) := by
  induction params generalizing q with
  | nil => exact draws_pure fun _ _ _ _ => lands_nil
  | cons p rest ih =>
    obtain ⟨var, optional, default⟩ := p
    have hrest (hv : q) (hs : T.spelled) := (forall_mem_cons.1 (hvars hv hs)).2
    cases default with
    | none => exact (ih h hq hrest).le (Nat.le_add_left _ _)
    | some e =>
      obtain ⟨he, hbelow⟩ := forall_mem_cons.1 h
      refine (he.sound scope fun hv => hq hv e (.head _)).then fun v =>
        (ih hbelow (fun hv c hc => hq hv.1 c (.tail _ hc)) fun hv => hrest hv.1).map
          fun hv lo _ _ hcode => ?_
      have hdefault : Lands T true home [] lo lo [.default (Lua.localName var) v] :=
        lands_still ⟨hv.2.1, fun hs => ⟨hvars hv.1 hs var (.head _), hv.2.2 hs⟩⟩ rfl rfl
      exact ⟨(hdefault.functions.append hcode.functions), hcode.laid,
        fun hs => (hdefault.sequel hs).append (hcode.sequel hs)⟩

theorem map_emitParams (params : List (Param Expr)) :
    ((emitParams params).map fun p => Lua.localName p.var) =
      (params.map Param.var).map Lua.localName := by
  induction params with
  | nil => rfl
  | cons p rest ih => exact congrArg (Lua.localName p.var :: ·) ih

/-- A function literal is written apart from the loops around it. -/
theorem written_function {result : Ty}
    (h : ∀ e ∈ params.filterMap Param.default ++ body.toList, Written T e) :
    Written T (.function loc type params result body) := by
  rw [forall_mem_append] at h
  refine .ofValue rfl (fun _ => rfl) fun scope q hq => ?_
  have hvars (hv : q) (hs : T.spelled) (v) (hmem : v ∈ params.map Param.var) :
      T.name (Lua.localName v) := T.var hs (hq hv) hmem
  have hdefaults : Draws T q { scope with control := [], inCtor := false }
      (demandParams params) (defaults (emitParams params)) (Lands T true none []) :=
    draws_defaults h.1 _ (fun hv _ hc => T.value_part (hq hv) hc) hvars
  have hstands (hv : q) (c) (hc : c ∈ body.toList) :
      T.Stands { scope with control := [], inCtor := false } c :=
    ⟨fun _ => quiet_of_head (by simp) c, T.stmt_part (hq hv) hc⟩
  have hbody := (draws_bodyOf h.2 false).under hstands
  refine (draws_withinFunction (hdefaults.append hbody).indented).map fun hv _ _ code hcode => ?_
  refine Sound.value ⟨⟨T.apart (hq hv) rfl fun ht => (hcode.laid ht).routed, hcode.functions⟩,
    fun hs => ⟨?_, (hcode.sequel hs).1⟩⟩ rfl
  rw [nil_append, map_emitParams]
  exact forall_mem_map.2 (hvars hv hs)

theorem written_object (h : ∀ e ∈ fields.map FieldInit.value, Written T e) :
    Written T (.object loc type fields) :=
  .ofValue rfl (fun _ => rfl) fun scope _ hq =>
    (draws_fieldValues h scope fun hv _ hc => T.value_part (hq hv) hc).map fun _ _ _ _ hvs =>
      ⟨hvs.1, fun hs => ⟨fun _ => rfl, hvs.2 hs⟩⟩

theorem written_array {elements : List Expr} (h : ∀ e ∈ elements, Written T e) :
    Written T (.array loc type elements) :=
  .ofValue rfl (fun _ => rfl) fun scope _ hq =>
    (draws_values h scope fun hv _ hc => T.value_part (hq hv) hc).map fun _ _ _ _ hvs =>
      ⟨hvs.1, fun hs => ⟨fun _ => rfl, hvs.2 hs⟩⟩

theorem written_new {ctorType : Ty} {cls : TypePath} {args : List Expr}
    (h : ∀ e ∈ args, Written T e) : Written T (.new loc type cls ctorType args) :=
  .ofCall rfl (fun _ => rfl) fun scope _ hq =>
    (draws_values h scope fun hv _ hc => T.value_part (hq hv) hc).map fun hv _ _ _ hvs =>
      (soundHead_dotted fun hs => by
        have hname : T.name "new" := T.brought hs _ (by decide)
        exact Lua.dotted_member (T.path hs (hq hv) (.head _)) hname).call hvs

/-! ## Calls -/

theorem demandEach_eq_map (es : List Expr) : demandEach es = es.map demand := by
  induction es with
  | nil => rfl
  | cons e rest ih => rw [demandEach, ih, map_cons]

section Calls

variable {callee : Expr} {args : List Expr}

/-- Given code with its arguments in place. -/
theorem draws_fillCode (h : ∀ e ∈ args, Written T e) (scope : Scope)
    (hq : q → ∀ e ∈ args, T.value e) {pieces : List CodePiece}
    (hpieces : q → CodePiece.overflow ∈ pieces → T.fault .placeholderOverflow) :
    Draws T q scope (codeDemand (demandEach args) pieces) (fillCode (emitList args) pieces)
      fun _ _ code => Lua.Expr.PiecesFunctions T.function code := by
  induction pieces generalizing q with
  | nil => exact draws_pure fun _ _ _ _ => trivial
  | cons piece rest ih =>
    have hrest {q' : Prop} (hq' : q' → q) := ih (fun hv => hq (hq' hv))
      fun hv hmem => hpieces (hq' hv) (.tail _ hmem)
    cases piece with
    | char => exact (hrest id).map fun _ _ _ _ hcode => hcode
    | overflow => exact draws_throw fun hv => hpieces hv (.head _)
    | arg position =>
      rw [emitList_eq_map, demandEach_eq_map] at hrest ⊢
      rw [fillCode, codeDemand, getElem?_map, getD_eq_getElem?_getD, getElem?_map]
      cases harg : args[position]? with
      | none => exact (hrest id).le (Nat.le_add_left _ _)
      | some e =>
        have he : e ∈ args := mem_of_getElem? harg
        exact ((h e he).sound scope fun hv => hq hv e he).then fun _ =>
          (hrest And.left).map fun hv _ _ _ hcode => ⟨hv.2.1, hcode⟩

theorem Written.callValue (hc : Written T callee) (ha : ∀ e ∈ args, Written T e)
    (scope : Scope) (hqc : q → T.value callee) (hqa : q → ∀ e ∈ args, T.value e) :
    Draws T q scope (demand callee + (demandEach args).sum)
      (callValue (emit callee) (emitList args)) fun _ _ => SoundCall T :=
  (hc.head scope hqc).then fun _ =>
    (draws_values ha scope fun hv => hqa hv.1).map fun hf _ _ _ hvs => hf.2.call hvs

/-- A method is called on its receiver, with its name. -/
theorem Written.callMember {receiver : Expr} (hc : Written T callee)
    (ha : ∀ e ∈ args, Written T e) (scope : Scope) (hqc : q → T.value callee)
    (hqa : q → ∀ e ∈ args, T.value e) :
    Draws T q scope (demand callee + (demandEach args).sum)
      (callMember loc (emit callee) ref receiver (emitList args)) fun _ _ => SoundCall T := by
  have hvalue := hc.callValue ha scope hqc hqa
  unfold Emission.callMember
  split
  · exact hvalue
  · split
    · refine draws_based (draws_read ?_)
      dsimp only
      split
      · exact draws_misuse rfl
      · rename_i hbase
        exact ((draws_values ha scope fun hv => hqa hv.1).map fun hb _ _ _ hvs =>
          (soundHead_prototype hb.2 hbase).member.callWithSelf hvs).le (Nat.le_add_left _ _)
    · split
      · rename_i object hreceiver
        split
        · rename_i hname
          exact (hc.receiver scope hqc object hreceiver).then fun _ =>
            (draws_values ha scope fun hv => hqa hv.1).map fun hobject _ _ _ hvs =>
              hobject.2.method hname hvs
        · exact hvalue
      · exact hvalue

/-- The constructor of the superclass. -/
theorem draws_callSuper (ha : ∀ e ∈ args, Written T e) (scope : Scope)
    (hqa : q → ∀ e ∈ args, T.value e) :
    Draws T q scope (demandEach args).sum (callSuper loc (emitList args))
      fun _ _ => SoundCall T := by
  refine draws_based (draws_read ?_)
  split
  · exact draws_misuse rfl
  · split
    · exact draws_misuse rfl
    · rename_i hbase
      refine (draws_values ha scope fun hv => hqa hv.1).map fun hb _ _ _ hvs =>
        (soundHead_dotted fun hs => ?_).callWithSelf hvs
      have hname : T.name "super" := T.brought hs _ (by decide)
      exact Lua.dotted_member (hb.2 hs (Bool.eq_false_iff.2 hbase)) hname

/-- An intrinsic other than given code. The name of a global may be no name. -/
theorem draws_intrinsic (hname : name ≠ "__lua__") (ha : ∀ e ∈ args, Written T e) (scope : Scope)
    (hqa : q → ∀ e ∈ args, T.value e) (hglobal : q → T.spelled → name ≠ "__global__") :
    Draws T q scope (demandEach args).sum (intrinsic loc name nameLoc (emitList args))
      fun _ _ => SoundCall T := by
  unfold intrinsic
  rw [if_neg hname]
  split
  · rename_i heq
    split
    · exact draws_misuse rfl
    · rw [tail_emitList]
      have hvalues := draws_values (fun e he => ha e (mem_of_mem_tail he)) scope
        fun hv e he => hqa hv e (mem_of_mem_tail he)
      refine (hvalues.map fun hv _ _ _ hvs => ⟨⟨trivial, hvs.1⟩,
        fun hs => absurd heq (hglobal hv hs)⟩).le ?_
      cases args with
      | nil => exact Nat.le_refl _
      | cons => exact Nat.le_add_left _ _
  · split
    · cases args with
      | nil => exact draws_misuse rfl
      | cons f rest =>
        cases rest with
        | nil =>
          exact ((ha f (.head _)).sound scope fun hv => hqa hv f (.head _)).map
            fun _ _ _ _ hv => soundCall_brought "_hx_hash" (by decide) (hv.cons soundAll_nil)
        | cons => exact draws_misuse rfl
    · split
      · cases args with
        | nil => exact draws_misuse rfl
        | cons f =>
          obtain ⟨hf, hrest⟩ := forall_mem_cons.1 ha
          exact hf.callValue hrest scope (fun hv => hqa hv f (.head _))
            fun hv e he => hqa hv e (.tail _ he)
      · exact draws_misuse rfl

/-- Given code, which may be anything. -/
theorem draws_code (ha : ∀ e ∈ args, Written T e) (scope : Scope) (hqa : q → ∀ e ∈ args, T.value e)
    (hfit : q → ∀ text ∈ args.head?.bind stringConst?, placeholdersFit text.toList = false →
      T.fault .placeholderOverflow) (hnone : q → ¬T.spelled) :
    Draws T q scope (argumentDemand (args.head?.bind stringConst?) (demandEach args))
      (intrinsic loc "__lua__" nameLoc (emitList args)) fun _ _ => SoundCall T := by
  unfold intrinsic
  rw [if_pos rfl, head?_emitList]
  cases htext : args.head?.bind stringConst? with
  | none => exact draws_misuse rfl
  | some text =>
    have hlength : (emitList args).length = (demandEach args).length := by
      rw [emitList_eq_map, demandEach_eq_map, length_map, length_map]
    rw [hlength]
    refine (draws_fillCode ha scope hqa fun hv hmem => hfit hv text htext ?_).map
      fun hv _ _ _ hcode => ⟨hcode, fun hs => absurd hs (hnone hv)⟩
    exact Bool.eq_false_iff.2 fun hfits => overflow_notMem_codePieces hfits 0 hmem

/-- What is called decides how it is written. -/
theorem Written.call (hc : Written T callee) (ha : ∀ e ∈ args, Written T e) :
    Written T (.call loc type callee args) := by
  refine .ofCall rfl (fun _ => rfl) fun scope q hq => ?_
  have hqc (hv : q) : T.value callee := T.value_part (hq hv) (.head _)
  have hqa (hv : q) (e) (he : e ∈ args) : T.value e := T.value_part (hq hv) (.tail _ he)
  rw [source_emit, demand]
  split
  · rename_i nameLoc _ name hbare
    by_cases hname : name = "__lua__"
    · subst hname
      have htext : codeText? callee args = args.head?.bind stringConst? := by
        rw [codeText?, hbare]
        exact if_pos rfl
      rw [htext]
      refine (draws_code ha scope hqa (fun hv text hmem => ?_) fun hv hs => ?_).le
        (Nat.le_add_left _ _)
      · exact T.overflow (hq hv) (htext ▸ hmem)
      · exact (T.ident hs (hqc hv) hbare).1 rfl
    · have htext : codeText? callee args = none := by
        rw [codeText?, hbare]
        exact if_neg hname
      rw [htext]
      exact (draws_intrinsic hname ha scope hqa fun hv hs => (T.ident hs (hqc hv) hbare).2).le
        (Nat.le_add_left _ _)
  · rename_i hbare
    rw [codeText?, hbare]
    exact (draws_callSuper ha scope hqa).le (Nat.le_add_left _ _)
  · rename_i hbare
    rw [codeText?, hbare]
    exact hc.callMember ha scope hqc hqa
  · rename_i hident _ _
    have htext : codeText? callee args = none := by
      unfold codeText?
      split
      · rename_i hbare
        exact absurd hbare (hident _ _ _)
      · rfl
    rw [htext]
    exact hc.callValue ha scope hqc hqa

end Calls

end LuaBackend.Emit
