import LuaBackend.Proofs.Emit.Written.Values

/-!
# Written statements

A loop takes its label before its body is written, so the label is older
than those in the body, and younger than those of the code before. A
continue finds the label of the innermost loop of its function on the
stack of control; after a try the continues of its body are handed on.
-/

namespace LuaBackend.Emit

open Emission List Expr Lua.Stmt

variable {T : Regime} {e : Expr} {scope : Scope} {k k' : Nat} {q : Prop} {loc : Loc} {type : Ty}
variable {followed : Bool} {home : Option UInt32} {ns ns' : List Lua.Nest} {lo mid hi : Nat}
variable {es : List Expr} {code : Lua.Block}
variable {var : Var} {v : Lua.Expr} {value : Option Lua.Expr} {mark : String}
variable {stmt : EmitM Lua.Stmt} {α : Type} {default : Option Expr} {s : Lua.Stmt}
variable {handlers : List (Handler Expr)}

/-! ## Sequences -/

/-- An optional expression that is `Sound`. -/
def SoundPart (T : Regime) (part : Option Lua.Expr) : Prop :=
  Lua.Expr.OptionFunctions T.function part ∧ (T.spelled → Lua.Expr.OptionFormed T.name T.place part)

theorem soundPart_none : SoundPart T none := ⟨trivial, fun _ => trivial⟩

theorem Sound.some (h : Sound T v) : SoundPart T (some v) := h

theorem lands_returnStmt (last : Bool) (h : SoundPart T value) :
    Lands T (!last) home [] lo hi [returnStmt last value] := by
  refine ⟨?_, fun _ => ?_, fun hs => sequel_returnStmt (h.2 hs)⟩
  · cases last <;> exact ⟨h.1, trivial⟩
  · cases last <;> exact .nil

theorem draws_sequence (h : ∀ e ∈ es, Written T e) (followed : Bool) :
    Draws T (∀ e ∈ es, T.Stands scope e) scope (demandEach es).sum (sequence followed (emitList es))
      (Lands T followed scope.home (nestAll scope.inLoop es)) := by
  induction es with
  | nil => exact draws_pure fun _ _ _ _ => lands_nil
  | cons e rest ih =>
    rw [forall_mem_cons] at h
    have hstmt (last : Bool) := (h.1.stmt scope last).under
      fun hq : ∀ c ∈ e :: rest, T.Stands scope c => hq e (.head _)
    cases rest with
    | nil =>
      have hlast := hstmt (!followed)
      rw [Bool.not_not] at hlast
      rw [nestAll, nestAll, append_nil]
      exact hlast
    | cons =>
      exact (hstmt false).append ((ih h.2).under fun hq c hc => hq c (.tail _ hc))

/-- A block that is called stands in a function of its own. -/
theorem draws_returning (h : ∀ e ∈ es, Written T e) (wanted : Bool) (hq : q → ∀ e ∈ es, T.value e) :
    Draws T q { scope with control := [], inCtor := false } (demandEach es).sum
      (returning wanted (emitList es)) (Lands T false none (nestAll false es)) := by
  induction es with
  | nil => exact draws_pure fun _ _ _ _ => lands_nil
  | cons e rest ih =>
    simp only [forall_mem_cons] at h hq
    have hstmt (last : Bool) :=
      (h.1.stmt { scope with control := [], inCtor := false } last).under
        fun hv => ⟨fun _ => quiet_of_head (by simp) e, T.stmt_of_value (hq hv).1⟩
    cases rest with
    | nil =>
      rw [nestAll, nestAll, append_nil]
      dsimp only [emitList, returning]
      split
      · rename_i hplain
        rw [source_emit, Bool.and_eq_true, Bool.not_eq_true'] at hplain
        rw [nest_of_value hplain.2]
        exact (h.1.sound _ fun hv => (hq hv).1).map fun _ _ _ _ hv => lands_returnStmt true hv.some
      · exact hstmt true
    | cons => exact (hstmt false).append (ih h.2 fun hv => (hq hv).2)

theorem Lands.enclosed (h : Lands T false home ns lo hi code) :
    Lands T followed home ns lo hi [.scope code] := by
  refine ⟨⟨h.functions, trivial⟩, fun ht => ?_, fun hs => sequel_singleton (h.sequel hs).1 rfl⟩
  rw [outlineAll, Lua.Stmt.outline, outlineAll, append_nil]
  exact h.laid ht

theorem written_block {exprs : List Expr} (h : ∀ e ∈ exprs, Written T e) :
    Written T (.block loc type exprs) := by
  have hsequence (scope : Scope) (followed : Bool) := (draws_sequence h followed).under
    fun (hq : T.Stands scope (.block loc type exprs)) e he => hq.part he rfl
  refine ⟨fun scope _ hq => ?_, fun _ _ _ => nofun, fun scope last => ?_, hsequence,
    fun scope => ?_⟩
  · refine (draws_withinFunction (draws_returning h _ fun hv _ he =>
      T.value_called (hq hv) he).indented).map ?_
    exact fun hv _ _ code hcode => Sound.value ⟨⟨T.called (hq hv) fun ht => (hcode.laid ht).routed,
      hcode.functions⟩, fun hs => (hcode.sequel hs).1⟩ rfl
  · change Draws _ _ _ _ (ite _ _ _) _
    split
    · rename_i hempty
      cases exprs with
      | nil => exact draws_pure fun _ _ _ _ => lands_nil
      | cons => cases hempty
    · exact (hsequence scope false).indented.map fun _ _ _ _ hcode => hcode.enclosed
  -- A block around nothing but a branch goes on with the arms of that branch.
  · have hbody : Draws T (T.Stands scope (.block loc type exprs)) scope (demandEach exprs).sum
        (do return { otherwise := some (← indented (sequence false (emitList exprs))) })
        (ElseTail.Lands T scope.home (nestAll scope.inLoop exprs)) :=
      (hsequence scope false).indented.map fun _ _ _ _ hcode => hcode.otherwise
    cases exprs with
    | nil => exact hbody
    | cons only rest =>
      cases rest with
      | nil =>
        change Draws _ _ _ _ (Emission.block loc type [emit only]).orElse _
        unfold Emission.block
        dsimp only
        split
        · have honly := ((h only (.head _)).orElse scope).under
            fun hq : T.Stands scope (.block loc type [only]) => hq.part (.head _) rfl
          rw [nest, nestAll, nestAll, append_nil]
          exact honly
        · exact hbody
      | cons => exact hbody

theorem lands_local (hvar : T.spelled → T.name (Lua.localName var)) (h : SoundPart T value) :
    Lands T followed home [] lo hi [.localVar (Lua.localName var) value] :=
  lands_still ⟨h.1, fun hs => ⟨hvar hs, h.2 hs⟩⟩ rfl rfl

theorem written_varDecl {init : Option Expr} (h : ∀ e ∈ init.toList, Written T e) :
    Written T (.varDecl loc var init) := by
  have hvar {scope : Scope} (hq : T.Stands scope (.varDecl loc var init)) (hs : T.spelled) :
      T.name (Lua.localName var) := T.var hs hq.2 (.head _)
  cases init with
  | none =>
    exact .stmtOnly rfl rfl fun _ _ => draws_pure fun hq _ _ _ => lands_local (hvar hq)
      soundPart_none
  | some e =>
    refine .stmtOnly rfl rfl fun scope _ => ?_
    exact ((h e (.head _)).sound scope fun hq => T.value_part hq.2 (.head _)).map
      fun hq _ _ _ hv => lands_local (hvar hq) hv.some

theorem written_ret {value : Option Expr} (h : ∀ e ∈ value.toList, Written T e) :
    Written T (.ret loc value) := by
  cases value with
  | none =>
    exact .stmtOnly rfl rfl fun _ last => draws_pure fun _ _ _ _ =>
      lands_returnStmt last soundPart_none
  | some e =>
    refine .stmtOnly rfl rfl fun scope last => ?_
    exact ((h e (.head _)).sound scope fun hq => T.value_part hq.2 (.head _)).map
      fun _ _ _ _ hv => lands_returnStmt last hv.some

theorem lands_raise (h : Sound T v) :
    Lands T followed home [] lo hi [.run (.call (.name "error") [v, .int 0])] := by
  have hcall : SoundCall T (.call (.name "error") [v, .int 0]) :=
    soundCall_brought "error" (by decide) (h.cons (sound_int.cons soundAll_nil))
  exact lands_still ⟨hcall.1, fun hs => ⟨rfl, rfl, (hcall.2 hs).2⟩⟩ rfl rfl

theorem Written.throw (h : Written T e) : Written T (.throw loc e) := by
  refine .stmtOnly rfl rfl fun scope _ => ?_
  exact (h.sound scope fun hq => T.value_part hq.2 (.head _)).map fun _ _ _ _ hv => lands_raise hv

/-- A mark that tells what a protected body wants done. -/
theorem lands_mark (h : mark ∈ broughtNames) :
    Lands T false home [] lo hi [.ret (some (.name mark))] :=
  lands_returnStmt true (soundHead_brought h).sound.some

/-- A break is a jump, or a mark in a protected body. -/
theorem draws_breakStmt (loc : Loc) :
    Draws T q scope k (breakStmt loc) fun _ _ s => ∀ lo hi, Lands T false home [] lo hi [s] := by
  refine draws_read ?_
  split
  · exact draws_misuse rfl
  · exact draws_pure fun _ _ _ _ _ _ => lands_mark (by decide)
  · exact draws_pure fun _ _ _ _ _ _ => lands_still ⟨trivial, fun _ => trivial⟩ rfl rfl

/-- A continue goes to the label of the innermost loop, if that is the
innermost frame. -/
theorem draws_continueStmt (loc : Loc) (hq : q → T.counted → scope.control.head? ≠ some (.loop 0)) :
    Draws T q scope k (continueStmt loc) fun _ _ s =>
      ∀ lo hi, Lands T false scope.home (if scope.inLoop then [.jump] else []) lo hi [s] := by
  refine draws_read ?_
  split
  · exact draws_misuse rfl
  · rename_i hcontrol
    refine draws_pure fun _ _ _ _ _ _ => ?_
    rw [Scope.inLoop, hcontrol]
    exact lands_mark (by decide)
  · rename_i label _ hcontrol
    split
    · rename_i hzero
      refine draws_throw fun hv => ?_
      by_cases ht : T.counted
      · refine absurd ?_ (hq hv ht)
        rw [hcontrol, hzero]
        rfl
      · exact T.unlabelled ht
    · rename_i hlabel
      refine draws_pure fun _ _ _ _ _ _ =>
        ⟨⟨trivial, trivial⟩, fun _ => ?_, fun _ => sequel_singleton trivial rfl⟩
      rw [Scope.inLoop, Scope.home, hcontrol]
      exact .jump (if_neg hlabel)

/-- A jump out of a protected body is written as a return. -/
theorem draws_jump (source : Expr) (last : Bool)
    (h : Draws T q scope k stmt fun _ _ s => ∀ lo hi, Lands T false home ns lo hi [s]) :
    Draws T q scope k ((jump source stmt).stmt last) (Lands T (!last) home ns) := by
  refine h.then fun s => (?_ : Draws _ _ scope 0 _ _)
  split
  · refine draws_pure fun hs lo hi _ => ?_
    obtain ⟨hvalue, hlaid, hsequel⟩ := hs.2 lo hi
    refine ⟨?_, fun ht => ?_, fun hs => sequel_returnStmt (hsequel hs).1.1⟩
    · cases last <;> exact hvalue
    · cases last <;> exact hlaid ht
  · rename_i hret
    refine draws_pure fun hs lo hi _ => ?_
    obtain ⟨hfunctions, hlaid, hsequel⟩ := hs.2 lo hi
    refine ⟨hfunctions, hlaid, fun hs => sequel_singleton (hsequel hs).1.1 ?_⟩
    cases s with
    | ret value => exact absurd rfl (hret value)
    | _ => rfl

theorem written_cont (loc : Loc) : Written T (.cont loc) := by
  refine .stmtOnly rfl rfl fun scope last => draws_jump (.cont loc) last ?_
  refine draws_continueStmt loc fun hq ht hhead => ?_
  have hcontinues : true = false := hq.1 ht hhead
  cases hcontinues

/-! ## Branches -/

section Arms

variable {arms : List (Lua.Arm Lua.Expr Lua.Stmt)} {stmts : Lua.Block}
variable {tail : ElseTail}

theorem elseTail_lands_nil : ElseTail.Lands T home [] lo hi {} :=
  ⟨⟨trivial, trivial⟩, fun _ => .nil, fun _ => ⟨trivial, trivial⟩⟩

theorem Lands.arm (h : Lands T false home ns lo hi stmts) (cond : Lua.Expr)
    (hcond : Sound T cond) :
    ElseTail.Lands T home ns lo hi { arms := [⟨cond, stmts⟩] } := by
  refine ⟨⟨⟨⟨hcond.1, h.functions⟩, trivial⟩, trivial⟩, fun ht => ?_,
    fun hs => ⟨⟨⟨hcond.2 hs, (h.sequel hs).1⟩, trivial⟩, trivial⟩⟩
  rw [outlineArms, outlineArms, append_nil, outlineOtherwise, append_nil]
  exact h.laid ht

/-- Arms in front of what follows them. -/
theorem ElseTail.Lands.append (h : ElseTail.Lands T home ns lo mid { arms := arms })
    (h' : tail.Lands T home ns' mid hi) (hle : T.counted → lo ≤ mid ∧ mid ≤ hi) :
    ElseTail.Lands T home (ns ++ ns') lo hi ⟨arms ++ tail.arms, tail.otherwise⟩ := by
  refine ⟨⟨h.functions.1.append h'.functions.1, h'.functions.2⟩, fun ht => ?_,
    fun hs => ⟨(h.formed hs).1.append (h'.formed hs).1, (h'.formed hs).2⟩⟩
  have hlaid := h.laid ht
  rw [outlineOtherwise, append_nil] at hlaid
  rw [outlineArms_append, append_assoc]
  exact hlaid.append (h'.laid ht) (hle ht).1 (hle ht).2

theorem ElseTail.Lands.branches (h : tail.Lands T home ns lo hi) (hne : tail.arms ≠ []) :
    Emit.Lands T followed home ns lo hi [.branches tail.arms tail.otherwise] := by
  refine ⟨⟨h.functions, trivial⟩, fun ht => ?_, fun hs => sequel_singleton ⟨hne, h.formed hs⟩ rfl⟩
  rw [outlineAll, Lua.Stmt.outline, outlineAll, append_nil]
  exact h.laid ht

end Arms

theorem draws_elseTail {part : Option Expr} (h : ∀ e ∈ part.toList, Written T e) :
    Draws T (∀ e ∈ part.toList, T.Stands scope e) scope (demandOption part)
      (elseTail (emitOption part))
      (ElseTail.Lands T scope.home (nestPart scope.inLoop part)) := by
  cases part with
  | none => exact draws_pure fun _ _ _ _ => elseTail_lands_nil
  | some e =>
    change Draws _ _ _ _ (ite _ _ _) _
    split
    · rename_i hempty
      rw [source_emit] at hempty
      rw [nestPart_of_isEmptyBranch hempty]
      exact draws_pure fun _ _ _ _ => elseTail_lands_nil
    · exact ((h e (.head _)).orElse scope).under fun hq => hq e (.head _)

section Branches

variable {cond : Expr} {onTrue onFalse : Option Expr}

/-- The first arm, after its condition, and what follows it. -/
theorem draws_arms {R : Nat → Nat → α → Prop} {c : Lua.Expr} (f : ElseTail → α)
    (h : ∀ e ∈ onTrue.toList ++ onFalse.toList, Written T e)
    (hf : ∀ lo hi tail, ElseTail.Lands T scope.home (nestPart scope.inLoop onTrue ++
      nestPart scope.inLoop onFalse) lo hi tail → tail.arms ≠ [] → R lo hi (f tail)) :
    Draws T (T.Stands scope (.ite loc type cond onTrue onFalse) ∧ Sound T c)
      scope (demandOption onTrue + demandOption onFalse) (do
        let stmts ← indented (bodyOf (emitOption onTrue) false)
        let tail ← elseTail (emitOption onFalse)
        return f ⟨⟨c, stmts⟩ :: tail.arms, tail.otherwise⟩) R := by
  rw [forall_mem_append] at h
  refine ((draws_bodyOf h.1 false).under fun hq e he =>
    hq.1.part (mem_append_left _ he) rfl).indented.bind fun _ => ?_
  refine ((draws_elseTail h.2).under fun hq e he =>
    hq.1.1.part (mem_append_right _ he) rfl).map ?_
  exact fun hq _ _ _ htail _ hle hstmts =>
    hf _ _ _ ((hstmts.arm _ hq.1.2).append htail hle) (cons_ne_nil _ _)

/-- An empty branch is turned around. -/
theorem written_ite (hc : Written T cond) (h : ∀ e ∈ onTrue.toList ++ onFalse.toList, Written T e) :
    Written T (.ite loc type cond onTrue onFalse) := by
  have hcond (scope : Scope) := hc.sound scope
    fun hq : T.Stands scope (.ite loc type cond onTrue onFalse) => T.value_part hq.2 (.head _)
  have hstmt (scope : Scope) (last followed : Bool) :
      Draws T (T.Stands scope (.ite loc type cond onTrue onFalse)) scope
        (demand cond + (demandOption onTrue + demandOption onFalse))
        ((emit (.ite loc type cond onTrue onFalse)).stmt last) (Lands T followed scope.home
          (nestPart scope.inLoop onTrue ++ nestPart scope.inLoop onFalse)) := by
    refine (hcond scope).then fun c => ?_
    rw [map_source_emitOption, map_source_emitOption]
    dsimp only
    split
    · rename_i hempty
      rw [Bool.and_eq_true] at hempty
      rw [nestPart_of_isEmptyBranch hempty.1, nestPart_of_isEmptyBranch hempty.2]
      exact draws_pure fun hq _ _ _ => lands_still hq.2 rfl rfl
    · split
      · rename_i hempty
        rw [nestPart_of_isEmptyBranch hempty]
        rw [forall_mem_append] at h
        have hbody := (draws_bodyOf h.2 false).under fun (hq : T.Stands scope
          (.ite loc type cond onTrue onFalse) ∧ Sound T c) e he =>
            hq.1.part (mem_append_right _ he) rfl
        exact (hbody.indented.map fun hq _ _ _ hstmts => (hstmts.arm (.not (.paren c)) hq.2).branches
          (cons_ne_nil _ _)).le (Nat.le_add_left _ _)
      · exact draws_arms (fun tail => [branches tail.arms tail.otherwise]) h
          fun _ _ _ htail hne => htail.branches hne
  refine ⟨fun _ _ hq => draws_throw fun hv => T.statement (hq hv) rfl, fun _ _ _ => nofun,
    fun scope _ => hstmt scope _ _, fun scope _ => hstmt scope true _, fun scope => ?_⟩
  exact (hcond scope).then fun _ => draws_arms id h fun _ _ _ htail _ => htail

end Branches

/-! ## Switches -/

section Switches

variable {subject : Emission} {cases : List (Case Expr)}

theorem draws_caseTest {value : Emission} (hs : Draws T q scope k subject.value fun _ _ => Sound T)
    (hv : Draws T q scope k' value.value fun _ _ => Sound T) :
    Draws T q scope (k + k') (caseTest subject value) fun _ _ => Sound T :=
  (draws_operand _ _ hs).then fun _ => ((draws_operand _ _ hv).under And.left).map
    fun hsubject _ _ _ hvalue => hsubject.2.binary hvalue

section

variable (hs : Draws T q scope k subject.value fun _ _ => Sound T) (h : ∀ e ∈ es, Written T e)
  (hq : q → ∀ e ∈ es, T.value e)
include hs h hq

/-- Each further value adds a comparison. -/
theorem draws_caseTestsAfter (test : Lua.Expr) (htest : q → Sound T test) :
    Draws T q scope ((demandEach es).map (k + ·)).sum
      (caseTestsAfter subject test (emitList es)) fun _ _ => Sound T := by
  induction es generalizing test q with
  | nil => exact draws_pure fun hv _ _ _ => htest hv
  | cons e rest ih =>
    simp only [forall_mem_cons] at h hq
    refine (draws_caseTest hs (h.1.sound scope fun hv => (hq hv).1)).then fun next => ?_
    exact ih (hs.under And.left) h.2 (fun hv => (hq hv.1).2) (.binary .or test next)
      fun hv => (htest hv.1).binary hv.2

theorem draws_caseCond :
    Draws T q scope ((demandEach es).map (k + ·)).sum (caseCond subject (emitList es))
      fun _ _ => Sound T := by
  cases es with
  | nil => exact draws_pure fun _ _ _ _ => ⟨trivial, fun _ => trivial⟩
  | cons =>
    simp only [forall_mem_cons] at h hq
    exact (draws_caseTest hs (h.1.sound scope fun hv => (hq hv).1)).then fun first =>
      draws_caseTestsAfter (hs.under And.left) h.2 (fun hv => (hq hv.1).2) first And.right

end

theorem draws_caseArms (hs : Draws T q scope k subject.value fun _ _ => Sound T)
    (h : ∀ c ∈ cases, ∀ e ∈ c.values ++ c.body.toList, Written T e)
    (hvalues : q → ∀ c ∈ cases, ∀ e ∈ c.values, T.value e)
    (hbodies : q → ∀ c ∈ cases, ∀ e ∈ c.body.toList, T.Stands scope e) :
    Draws T q scope (demandCases k cases) (caseArms subject (emitCases cases)) fun lo hi arms =>
      ElseTail.Lands T scope.home (nestCases scope.inLoop cases) lo hi { arms := arms } ∧
        (cases ≠ [] → arms ≠ []) := by
  induction cases generalizing q with
  | nil => exact draws_pure fun _ _ _ _ => ⟨elseTail_lands_nil, absurd rfl⟩
  | cons c rest ih =>
    obtain ⟨values, body⟩ := c
    simp only [forall_mem_cons, forall_mem_append] at h hvalues hbodies
    refine (draws_caseCond hs h.1.1 fun hv => (hvalues hv).1).then fun _ => ?_
    refine ((draws_bodyOf h.1.2 false).under fun hv => (hbodies hv.1).1).indented.bind fun _ => ?_
    refine (ih (hs.under fun hv => hv.1.1) ?_ (fun hv => (hvalues hv.1.1).2)
      fun hv => (hbodies hv.1.1).2).map ?_
    · simpa only [forall_mem_append] using h.2
    · exact fun hv _ _ _ harms _ hle hstmts =>
        ⟨(hstmts.arm _ hv.1.2).append harms.1 hle, fun _ => cons_ne_nil _ _⟩

theorem any_emitOption (hit : Expr → Bool) (part : Option Expr) :
    ((emitOption part).any fun em => hit em.source) = part.any hit := by
  cases part with
  | none => rfl
  | some e => exact congrArg hit (source_emit e)

theorem draws_defaultArm (h : ∀ e ∈ default.toList, Written T e) :
    Draws T (∀ e ∈ default.toList, T.Stands scope e) scope (demandOption default)
      (defaultArm (emitOption default)) fun lo hi otherwise =>
        ElseTail.Lands T scope.home (nestPart scope.inLoop default) lo hi ⟨[], otherwise⟩ := by
  unfold defaultArm
  rw [map_source_emitOption]
  split
  · rename_i hempty
    rw [nestPart_of_isEmptyBranch hempty]
    exact draws_pure fun _ _ _ _ => elseTail_lands_nil
  · exact (draws_bodyOf h false).indented.map fun _ _ _ _ hstmts => hstmts.otherwise

/-- A switch without cases is its default. -/
theorem written_switch {subject : Expr} (hs : Written T subject)
    (h : ∀ e ∈ cases.flatMap (fun c => c.values ++ c.body.toList) ++ default.toList,
      Written T e) : Written T (.switch loc type subject cases default) := by
  rw [forall_mem_append, forall_mem_flatMap] at h
  refine .stmtOnly rfl rfl fun scope last => ?_
  change Draws _ _ _ _ _ (Lands T (!last) scope.home
    (nestCases scope.inLoop cases ++ nestPart scope.inLoop default))
  have hstands (hq : T.Stands scope (.switch loc type subject cases default)) (e)
      (he : e ∈ default.toList) : T.Stands scope e := hq.part (mem_append_right _ he) rfl
  cases cases with
  | nil =>
    cases default with
    | none => exact draws_pure fun _ _ _ _ => lands_nil
    | some e =>
      change Draws _ _ _ _
        (if isEmptyBranch (some (emit e).source) then pure [] else (emit e).stmt false) _
      split
      · rename_i hempty
        rw [source_emit] at hempty
        rw [nestPart_of_isEmptyBranch hempty]
        exact draws_pure fun _ _ _ _ => lands_nil
      · refine (((h.2 e (.head _)).stmt scope false).mono (Nat.le_add_left _ _)
          (fun hq => hstands hq e (.head _)) fun _ _ _ _ hcode => ?_)
        exact ⟨hcode.functions, hcode.laid,
          fun hs => ⟨(hcode.sequel hs).1, fun _ => (hcode.sequel hs).2 rfl⟩⟩
  | cons c =>
    refine (draws_caseArms (hs.sound scope fun hq => T.value_part hq.2 (.head _)) h.1
      (fun hq c hc e he => ?_) fun hq c hc e he => ?_).bind fun _ => ?_
    · exact T.value_part hq.2 (.tail _ (mem_flatMap_of_mem hc he))
    · have hbody := mem_filterMap.2 ⟨c, hc, Option.mem_toList.1 he⟩
      exact hq.part (mem_append_left _ hbody) rfl
    · refine ((draws_defaultArm h.2).under fun hq => hstands hq.1).map
        fun _ _ _ _ hotherwise _ hle harms => ?_
      have hbranches := harms.1.append hotherwise hle
      rw [append_nil] at hbranches
      exact hbranches.branches (harms.2 (cons_ne_nil _ _))

end Switches

/-! ## Loops -/

section Loops

variable {body : Option Expr} {label : UInt32}

/-- A loop with a continue gets a label. -/
theorem draws_loopLabel : Draws T q scope (loopDemand body) (loopLabel (emitOption body))
    fun lo hi label => T.counted → (label = 0 → body.any continuesLoop = false) ∧
      (label ≠ 0 → lo ≤ label.toNat ∧ label.toNat < hi) := by
  unfold loopLabel loopDemand
  rw [any_emitOption continuesLoop]
  split
  · exact draws_freshLabel.imp fun _ _ _ hlabel ht =>
      ⟨fun hzero => absurd hzero (hlabel ht).1, fun _ => (hlabel ht).2⟩
  · rename_i hquiet
    exact draws_pure fun _ _ _ _ _ => ⟨fun _ => Bool.eq_false_iff.2 hquiet, absurd rfl⟩

/-- The code of a loop's body. It ends with the label if there is one, and
otherwise nothing in it jumps to the end. -/
structure LoopLands (T : Regime) (label : UInt32) (ns : List Lua.Nest) (lo hi : Nat)
    (code : Lua.Block) : Prop where
  functions : Lua.Stmt.AllFunctions T.function code
  laid : T.counted → if label = 0 then Lua.Laid none ns lo hi (outlineAll code)
    else ∃ inner, code = inner ++ [.label label] ∧
      Lua.Laid (some label) ns lo hi (outlineAll inner)
  formed : T.spelled → Lua.Stmt.AllFormed T.name T.place code

theorem LoopLands.cons (h : LoopLands T label ns lo hi code) (hs : SoundStmt T s)
    (houtline : s.outline = []) (hreturn : s.isReturn = false) :
    LoopLands T label ns lo hi (s :: code) := by
  have hall (rest : Lua.Block) : outlineAll (s :: rest) = outlineAll rest := by
    rw [outlineAll, houtline, nil_append]
  refine ⟨⟨hs.1, h.functions⟩, fun ht => ?_, fun hsp => ⟨hs.2 hsp, fun hret =>
    absurd (hreturn.symm.trans hret) Bool.false_ne_true, h.formed hsp⟩⟩
  have hlaid := h.laid ht
  split at hlaid
  · rw [if_pos ‹_›, hall]
    exact hlaid
  · obtain ⟨inner, rfl, hinner⟩ := hlaid
    rw [if_neg ‹_›]
    exact ⟨s :: inner, rfl, (hall inner).symm ▸ hinner⟩

/-- The label of a loop is older than the labels in its body. -/
theorem LoopLands.lands (h : LoopLands T label ns mid hi code) (hs : SoundStmt T s)
    (houtline : s.outline = [.loop (Lua.endLabel code) (outlineAll code)])
    (hreturn : s.isReturn = false)
    (hlabel : T.counted → label ≠ 0 → lo ≤ label.toNat ∧ label.toNat < mid)
    (hle : T.counted → lo ≤ mid ∧ mid ≤ hi) : Lands T followed home [.loop ns] lo hi [s] := by
  refine ⟨⟨hs.1, trivial⟩, fun ht => ?_, fun hsp => sequel_singleton (hs.2 hsp) hreturn⟩
  rw [outlineAll, outlineAll, append_nil, houtline]
  have hlaid := h.laid ht
  split at hlaid
  · exact (hlaid.widen (hle ht).1 .refl).plainLoop
  · rename_i hne
    obtain ⟨inner, rfl, hinner⟩ := hlaid
    obtain ⟨hfrom, hto⟩ := hlabel ht hne
    have hhi := (hle ht).2
    have hend : Lua.endLabel (inner ++ [.label label]) = some label := by
      rw [Lua.endLabel, getLast?_concat]
    rw [hend, outlineAll_append]
    refine Lua.Laid.widen ?_ hfrom (Nat.le_refl hi)
    exact (hinner.widen hto (Nat.le_refl hi)).labelledLoop (by omega)

/-- The body is written inside the frame of its loop. -/
theorem draws_loopBody (h : ∀ e ∈ body.toList, Written T e) (closed : Bool)
    (hq : q → ∀ e ∈ body.toList, T.stmt e)
    (hlabel : q → T.counted → label = 0 → body.any continuesLoop = false) :
    Draws T q scope (demandOption body) (loopBody (emitOption body) label closed)
      (LoopLands T label (nestPart true body)) := by
  -- Without a label the body has no continue, and with one its continues go there.
  have hstands (hv : q) (e) (he : e ∈ body.toList) :
      T.Stands { scope with control := .loop label :: scope.control } e := by
    refine ⟨fun ht hhead => ?_, hq hv e he⟩
    cases hhead
    obtain rfl : body = some e := Option.mem_toList.1 he
    exact hlabel hv ht rfl
  have hbody := draws_within ((draws_bodyOf h false).under hstands)
  have hhome : Scope.home { scope with control := .loop label :: scope.control } =
      if label = 0 then none else some label := rfl
  rw [hhome] at hbody
  rw [loopBody_eq]
  refine hbody.widen.bind fun code => (?_ : Draws _ _ scope 0 _ _)
  split
  · rename_i hzero
    refine draws_pure fun _ _ hi _ lo hle hcode => ?_
    have hlands := hcode lo hi fun ht => ⟨.refl, (hle ht).2⟩
    have hscope : Lands T false _ _ lo hi [.scope code] := hlands.enclosed
    cases closed with
    | false => exact ⟨hlands.functions, fun ht => (if_pos hzero).mpr (hlands.laid ht),
        fun hs => (hlands.sequel hs).1⟩
    | true => exact ⟨hscope.functions, fun ht => (if_pos hzero).mpr (hscope.laid ht),
        fun hs => (hscope.sequel hs).1⟩
  -- The scope keeps the locals of the body away from the label after it.
  · rename_i hne
    refine draws_pure fun _ _ hi _ lo hle hcode => ?_
    have hlands := hcode lo hi fun ht => ⟨.refl, (hle ht).2⟩
    have hscope : Lands T true _ _ lo hi [.scope code] := hlands.enclosed
    exact ⟨⟨hlands.functions, trivial, trivial⟩,
      fun ht => (if_neg hne).mpr ⟨[.scope code], rfl, hscope.laid ht⟩, fun hs =>
        (hscope.sequel hs).1.append ((hscope.sequel hs).2 rfl) (allFormed_singleton
          trivial)⟩

/-- A loop is written with its label known. -/
theorem draws_labelledLoop {f : UInt32 → EmitM Lua.Block}
    (hf : ∀ label, Draws T (q ∧ (T.counted → label = 0 → body.any continuesLoop = false)) scope
      k (f label) fun mid hi code => ∀ lo, (T.counted → lo ≤ mid ∧ mid ≤ hi) →
        (T.counted → label ≠ 0 → lo ≤ label.toNat ∧ label.toNat < mid) →
          Lands T followed home ns lo hi code) :
    Draws T q scope (loopDemand body + k) (loopLabel (emitOption body) >>= f)
      (Lands T followed home ns) := by
  refine draws_loopLabel.bind fun label => (hf label).mono .refl ?_ ?_
  · rintro ⟨hq, _, _, hlabel⟩
    exact ⟨hq, fun ht => (hlabel ht).1⟩
  · intro _ _ _ code hcode lo hle hlabel
    exact hcode lo hle fun ht => (hlabel ht).2

theorem written_loop {test : LoopTest} {cond : Expr} (hc : Written T cond)
    (h : ∀ e ∈ body.toList, Written T e) : Written T (.loop loc test cond body) := by
  refine .stmtOnly rfl rfl fun scope _ => draws_labelledLoop fun label => ?_
  have hcond {q : Prop} (hq : q → T.Stands scope (.loop loc test cond body)) :=
    hc.sound scope fun hv => T.value_part (hq hv).2 (.head _)
  have hpart (hq : T.Stands scope (.loop loc test cond body)) (e) (he : e ∈ body.toList) :
      T.stmt e := T.stmt_part hq.2 he
  cases test with
  | before =>
    refine (hcond And.left).then fun c => (draws_loopBody h false (fun hq => hpart hq.1.1)
      fun hq => hq.1.2).indented.map ?_
    exact fun hq _ _ _ hstmts _ hle hlabel => hstmts.lands ⟨⟨hq.2.1, hstmts.functions⟩,
      fun hs => ⟨hq.2.2 hs, hstmts.formed hs⟩⟩ rfl rfl hlabel hle
  | after =>
    rw [Nat.add_comm]
    refine (draws_loopBody h _ (fun hq => hpart hq.1) And.right).indented.widen.bind fun stmts =>
      (hcond fun hq => hq.1.1).map ?_
    intro _ mid hi c hcond lo hle hbody lo' hle' hlabel
    have hstmts := hbody lo hi fun ht => ⟨.refl, (hle ht).2⟩
    exact hstmts.lands ⟨⟨hcond.1, hstmts.functions⟩, fun hs => ⟨hcond.2 hs, hstmts.formed hs⟩⟩ rfl
      rfl hlabel hle'

theorem written_forIn {iterator : Expr} (hi : Written T iterator)
    (h : ∀ e ∈ body.toList, Written T e) : Written T (.forIn loc var iterator body) := by
  refine .stmtOnly rfl rfl fun scope _ => draws_labelledLoop fun label => ?_
  have hpart (hq : T.Stands scope (.forIn loc var iterator body)) (e) (he : e ∈ body.toList) :
      T.stmt e := T.stmt_part hq.2 he
  refine .indented ((hi.sound scope fun hq => T.value_part hq.1.2 (.head _)).then fun it =>
    (draws_loopBody h false (fun hq => hpart hq.1.1) fun hq => hq.1.2).indented.map ?_)
  intro hq mid hi stmts hstmts lo hle hlabel
  have hname : SoundHead T (.name iteratorName) := soundHead_brought (by decide)
  have hcall : Sound T (.method (.name iteratorName) "next" []) :=
    (hname.method (by decide) soundAll_nil).head.sound
  have hmore : Sound T (.method (.name iteratorName) "hasNext" []) :=
    (hname.method (by decide) soundAll_nil).head.sound
  have hnext : SoundStmt T (.localVar (Lua.localName var)
      (some (.method (.name iteratorName) "next" []))) :=
    ⟨hcall.1, fun hs => ⟨T.var hs hq.1.1.2 (.head _), hcall.2 hs⟩⟩
  have hbody := hstmts.cons hnext rfl rfl
  have hloop : Lands T false scope.home _ lo hi
      [.loopWhile (.method (.name iteratorName) "hasNext" []) _] :=
    hbody.lands ⟨⟨hmore.1, hbody.functions⟩,
      fun hs => ⟨hmore.2 hs, hbody.formed hs⟩⟩ rfl rfl hlabel hle
  have hit : Lands T true scope.home [] lo lo [.localVar iteratorName (some it)] :=
    lands_still ⟨hq.2.1, fun hs => ⟨T.brought hs _ (by decide), hq.2.2 hs⟩⟩ rfl rfl
  exact (hit.append hloop fun ht => ⟨.refl, Nat.le_trans (hle ht).1 (hle ht).2⟩).enclosed

end Loops

/-! ## Exceptions -/

/-- The last handler is written, the others are not. -/
theorem draws_handlerArm (h : ∀ e ∈ handlers.filterMap Handler.body, Written T e)
    (hvars : q → T.spelled → ∀ v ∈ handlers.map Handler.var, T.name (Lua.localName v))
    (hq : q → ∀ e ∈ handlers.filterMap Handler.body, T.Stands scope e) :
    Draws T q scope (demandHandlers handlers) (handlerArm (emitHandlers handlers))
      (Lands T false scope.home (nestLast scope.inLoop handlers)) := by
  have hresult : Sound T (.name Lua.resultName) := (soundHead_brought (by decide)).sound
  induction handlers with
  | nil => exact draws_pure fun _ _ _ _ => lands_raise hresult
  | cons handler rest ih =>
    have hparts : (handler :: rest).filterMap Handler.body =
        handler.body.toList ++ rest.filterMap Handler.body := by
      cases hbody : handler.body with
      | none => exact filterMap_cons_none hbody
      | some => exact filterMap_cons_some hbody
    simp only [hparts, forall_mem_append] at h hq
    cases rest with
    | nil =>
      refine ((draws_bodyOf h.1 false).under fun hv => (hq hv).1).indented.map
        fun hv lo _ _ hstmts => ?_
      have hvar : Lands T true scope.home [] lo lo [.localVar (Lua.localName handler.var) _] :=
        lands_local (fun hs => hvars hv hs _ (.head _)) hresult.some
      exact ⟨⟨hvar.functions.1, hstmts.functions⟩, hstmts.laid,
        fun hs => (hvar.sequel hs).append (hstmts.sequel hs)⟩
    | cons => exact ih h.2 (fun hv hs v hmem => hvars hv hs v (.tail _ hmem)) fun hv => (hq hv).2

/-- An arm that is there only if it is needed. -/
theorem draws_armIf {needed : Bool} {op : Lua.Operator} (hmark : mark ∈ broughtNames)
    (hnone : needed = false → ns = []) (h : needed = true →
      Draws T q scope k stmt fun _ _ s => ∀ lo hi, Lands T false home ns lo hi [s]) :
    Draws T q scope k (armIf needed (resultIs op mark) stmt) fun _ _ arms =>
      ∀ lo hi, ElseTail.Lands T home ns lo hi { arms := arms } := by
  have hcond : Sound T (resultIs op mark) :=
    (soundHead_brought (by decide)).sound.binary (soundHead_brought hmark).sound
  cases needed with
  | false =>
    rw [hnone rfl]
    exact draws_pure fun _ _ _ _ _ _ => elseTail_lands_nil
  | true => exact (h rfl).indented.map fun _ _ _ _ hs lo hi => (hs lo hi).arm _ hcond

/-- The body is a Lua function. Its continues are handed on where the try
stands. -/
theorem written_tryCatch {body : Option Expr}
    (h : ∀ e ∈ body.toList ++ handlers.filterMap Handler.body, Written T e) :
    Written T (.tryCatch loc type body handlers) := by
  rw [forall_mem_append] at h
  refine .stmtOnly rfl rfl fun scope _ => ?_
  have hbody : Draws T (T.Stands scope (.tryCatch loc type body handlers)) scope
      (demandOption body) (within .protect (indented (bodyOf (emitOption body) true))) fun _ _ stmts =>
        SoundStmt T (.protect (stmts ++ [.ret (some (.name doneMark))])) := by
    refine draws_within (.indented ((draws_bodyOf h.1 true).mono .refl (fun hq e he => ?_)
      fun hq lo hi stmts hstmts => ?_))
    · exact ⟨fun _ => quiet_of_head (by simp) e, T.stmt_part hq.2 (mem_append_left _ he)⟩
    · have hlaid (ht : T.counted) : Lua.Laid none (nestPart false body) lo hi
          (outlineAll (stmts ++ [.ret (some (.name doneMark))])) := by
        rw [outlineAll_append]
        exact (append_nil (outlineAll stmts)).symm ▸ hstmts.laid ht
      have hdone : Lands T false none [] 0 0 [.ret (some (.name doneMark))] :=
        lands_mark (by decide)
      refine ⟨⟨T.apart hq.2 rfl fun ht => (hlaid ht).routed, ?_⟩, fun hs => ?_⟩
      · exact hstmts.functions.append hdone.functions
      · exact (hstmts.sequel hs).1.append ((hstmts.sequel hs).2 rfl) (hdone.sequel hs).1
  have hfailed := draws_handlerArm h.2
    (fun (hq : T.Stands scope (.tryCatch loc type body handlers)) hs _ hv => T.var hs hq.2 hv)
    fun hq e he => hq.part (mem_append_right _ he) rfl
  have hbreaks {q : Prop} : Draws T q scope 0
      (armIf ((emitOption body).any fun em => em.source.breaksLoop) (resultIs .eq breakMark)
        (breakStmt loc)) fun _ _ arms =>
          ∀ lo hi, ElseTail.Lands T scope.home [] lo hi { arms := arms } :=
    draws_armIf (by decide) (fun _ => rfl) fun _ => draws_breakStmt loc
  have hcontinues : Draws T (T.Stands scope (.tryCatch loc type body handlers)) scope 0
      (armIf ((emitOption body).any fun em => em.source.continuesLoop) (resultIs .eq continueMark)
        (continueStmt loc)) fun _ _ arms => ∀ lo hi, ElseTail.Lands T scope.home
          (if scope.inLoop && body.any continuesLoop then [.jump] else []) lo hi { arms := arms } := by
    rw [any_emitOption continuesLoop]
    refine draws_armIf (by decide) (fun hnone => ?_) fun hneeded => ?_
    · rw [hnone, Bool.and_false]
      rfl
    · rw [hneeded, Bool.and_true]
      -- A continue of the body is one of the try, so it finds a label.
      refine draws_continueStmt loc fun hq ht hhead => ?_
      obtain ⟨e, he, hcont⟩ := (Option.any_eq_true _ _).1 hneeded
      have hquiet : e.continuesLoop = false :=
        (hq.part (mem_append_left _ (Option.mem_toList.2 he)) rfl).1 ht hhead
      rw [hcont] at hquiet
      cases hquiet
  have hreturns {q : Prop} : Draws T q scope 0
      (armIf ((emitOption body).any fun em => em.source.canReturn) (resultIs .ne doneMark)
        (return .ret (some (.name Lua.resultName))))
      fun _ _ arms => ∀ lo hi, ElseTail.Lands T scope.home [] lo hi { arms := arms } :=
    draws_armIf (by decide) (fun _ => rfl) fun _ =>
      draws_pure fun _ _ _ _ _ _ => lands_mark (by decide)
  refine hbody.then fun stmts => (hfailed.under And.left).bind fun failed => hbreaks.then
    fun breaks => (hcontinues.under fun hq => hq.1.1.1).then fun continues => hreturns.map ?_
  intro hq mid hi returns hreturns lo hle hfailed
  obtain ⟨⟨⟨⟨-, hstmts⟩, -⟩, hbreaks⟩, hcontinues⟩ := hq
  have harms : ElseTail.Lands T scope.home _ mid hi { arms := breaks ++ continues ++ returns } :=
    ((hbreaks mid mid).append (hcontinues mid mid) fun _ => ⟨.refl, .refl⟩).append
      (hreturns mid hi) fun ht => ⟨.refl, (hle ht).2⟩
  rw [nil_append, append_nil] at harms
  have hfirst : Sound T (.not (.name Lua.statusName)) := (soundHead_brought (by decide)).sound
  have hbranches := (hfailed.arm _ hfirst).append harms hle
  have hprotected : Lands T true scope.home [] lo lo
      [.protect (stmts ++ [.ret (some (.name doneMark))])] := lands_still hstmts rfl rfl
  exact hprotected.append (hbranches.branches (cons_ne_nil _ _))
    fun ht => ⟨.refl, Nat.le_trans (hle ht).1 (hle ht).2⟩

/-- **Every tree is written as its regime promises.** -/
theorem written (T : Regime) (e : Expr) : Written T e := by
  induction e using induction_on_children with
  | step e below =>
  cases e with
  | omitted =>
    exact .ofStmt rfl (fun _ _ _ => draws_pure fun _ _ _ _ =>
      Sound.value ⟨trivial, fun _ => trivial⟩ rfl) fun _ _ => draws_pure fun _ _ _ _ => lands_nil
  | const loc type value => exact written_const loc type value
  | «local» =>
    exact .ofValue rfl (fun _ => rfl) fun _ _ h => draws_pure fun hq _ _ _ =>
      (soundHead_name fun hs => T.var hs (h hq) (.head _)).value
  | typeRef =>
    exact .ofValue rfl (fun _ => rfl) fun _ _ h => draws_pure fun hq _ _ _ =>
      (soundHead_name fun hs => T.path hs (h hq) (.head _)).value
  | ident => exact .ofValue rfl (fun _ => rfl) fun _ _ _ => draws_misuse rfl
  | field => exact written_field below
  | index => exact (below _ (.head _)).index (below _ (.tail _ (.head _)))
  | paren => exact (below _ (.head _)).paren
  | annot => exact (below _ (.head _)).annot
  | object => exact written_object below
  | array => exact written_array below
  | call => exact (below _ (.head _)).call fun c hc => below c (.tail _ hc)
  | new => exact written_new below
  | binary => exact (below _ (.head _)).binary (below _ (.tail _ (.head _)))
  | unary => exact (below _ (.head _)).unary
  | function => exact written_function below
  | varDecl => exact written_varDecl below
  | block => exact written_block below
  | forIn => exact written_forIn (below _ (.head _)) fun c hc => below c (.tail _ hc)
  | ite => exact written_ite (below _ (.head _)) fun c hc => below c (.tail _ hc)
  | loop => exact written_loop (below _ (.head _)) fun c hc => below c (.tail _ hc)
  | switch => exact written_switch (below _ (.head _)) fun c hc => below c (.tail _ hc)
  | ret => exact written_ret below
  | brk loc => exact .stmtOnly rfl rfl fun _ last => draws_jump (.brk loc) last (draws_breakStmt
    loc)
  | cont loc => exact written_cont loc
  | throw => exact (below _ (.head _)).throw
  | cast => exact (below _ (.head _)).cast
  | tryCatch => exact written_tryCatch below
  | enumParam =>
    exact .ofValue rfl (fun _ => rfl) fun scope _ h =>
      draws_slot (below _ (.head _)) scope _ fun hq => T.value_part (h hq) (.head _)
  | enumIndex =>
    exact .ofValue rfl (fun _ => rfl) fun scope _ h =>
      draws_slot (below _ (.head _)) scope _ fun hq => T.value_part (h hq) (.head _)

/-- A tree that is written outside of all loops. -/
theorem draws_blockOf (T : Regime) (h : T.stmt e) (hcontrol : scope.control = []) :
    Draws T True scope (demand e) (blockOf e) (Lands T false none (e.nest false)) := by
  have hhome : scope.home = none := by rw [Scope.home, hcontrol]
  have hloop : scope.inLoop = false := by rw [Scope.inLoop, hcontrol]
  have hquiet : Quiet scope e := by
    refine quiet_of_head ?_ e
    rw [hcontrol]
    exact nofun
  have hbody := ((written T e).body scope false).under fun _ : True => ⟨fun _ => hquiet, h⟩
  rwa [hhome, hloop] at hbody

section Spelling

variable {N : String → Prop} {S : Lua.Expr → Prop}

/-- Its words are spelled as names, and what it stores into can be stored
into. -/
structure Spells (N : String → Prop) (S : Lua.Expr → Prop) (e : Expr) : Prop where
  words : e.Worded (SpelledBy N)
  stores : e.Throughout fun n => ∀ target ∈ n.stored?, ∀ scope, Based N scope →
    Ensures scope (emit target).value S

theorem Spells.child {c : Expr} (h : Spells N S e) (hc : c ∈ e.children) : Spells N S c :=
  ⟨h.words.child hc, h.stores.child hc⟩

/-- Nothing is known of the counter, so nothing is said of faults and
functions. -/
def spelling (S : Lua.Expr → Prop) (hN : ∀ text ∈ broughtNames, N text) : Regime where
  value := Spells N S
  stmt := Spells N S
  fault _ := True
  function _ _ := True
  counted := False
  spelled := True
  name := N
  place := S
  stmt_of_value := id
  value_part h hc := h.child (mem_children_iff.2 (.inl hc))
  stmt_part h hc := h.child (mem_children_iff.2 (.inr (.inl hc)))
  value_wrapped h hc := h.child (mem_children_iff.2 (.inr (.inr hc)))
  stmt_wrapped h hc := h.child (mem_children_iff.2 (.inr (.inr hc)))
  value_called h hc := h.child hc
  misuse _ := trivial
  statement _ _ := trivial
  coalesce _ := trivial
  operator _ _ := trivial
  overflow _ _ _ := trivial
  unlabelled _ := trivial
  apart _ _ _ := trivial
  called _ _ := trivial
  brought _ := hN
  word _ h := h.words.node _
  stored _ h ht := h.stores.node _ ht _

/-- What is written without looking at labels. -/
theorem Draws.ensures {act : EmitM α} {P : Nat → Nat → α → Prop} {Q : α → Prop}
    {hN : ∀ text ∈ broughtNames, N text} (h : Draws (spelling S hN) q scope k act P) (hq : q)
    (hb : Based N scope) (hQ : ∀ a, P 0 0 a → Q a) : Ensures scope act Q := by
  intro n a n' hrun
  obtain ⟨j, -, hact⟩ := h n
  rw [hrun] at hact
  exact hQ a (hact.2 hq ⟨False.elim, fun _ => hb⟩ 0 0 False.elim)

/-- **Trees are written as well-formed code**, if their words are spelled as
names and what they store into can be. -/
theorem Spells.formed (hN : ∀ text ∈ broughtNames, N text) (h : Spells N S e)
    (hb : Based N scope) : Ensures scope (blockOf e) (Lua.Stmt.AllFormed N S) :=
  ((written (spelling S hN) e).body scope false).ensures ⟨False.elim, h⟩ hb
    fun _ hcode => (hcode.sequel trivial).1

/-- What can be accessed is written as code that can be. -/
theorem Spells.isHead (hN : ∀ text ∈ broughtNames, N text) (h : Spells N S e)
    (hhead : isHead e = true) (hb : Based N scope) :
    Ensures scope (emit e).value fun v => v.isHead = true :=
  ((written (spelling S hN) e).value scope id).ensures h hb fun _ hv => (hv.2 trivial).1 hhead

end Spelling

end LuaBackend.Emit
