import LuaBackend.Nulls.Check
import LuaBackend.Proofs.Tree.Children
import Mathlib.Data.List.Basic

/-!
# What the check for null reports

A position in a tree is the list of the numbers of the children on the way
down to a node. The check looks at the nodes of all positions, in
lexicographic order. What is expected of the values at a node depends on
the node and, for what it returns, on the innermost function literal whose
body holds the position (`expectationsAt`). The broken expectations are
reported, once each and in the order of their positions. A `Checker` does
so while it walks through the tree, and keeps the types that returns have
to respect on a stack.
-/

namespace LuaBackend

open List

namespace Expr

def at? : Expr → List Nat → Option Expr
  | e, [] => some e
  | e, i :: p => e.children[i]?.bind (at? · p)

def positions (e : Expr) : List (List Nat) :=
  [] :: e.children.attach.zipIdx.flatMap fun ci => (positions ci.1.1).map (ci.2 :: ·)
termination_by sizeOf e
decreasing_by exact sizeOf_child ci.1.2

def bodyResult? : Expr → Nat → Option Ty
  | function _ _ params result (some _), i =>
    if i = (params.filterMap Param.default).length then some result else none
  | _, _ => none

/-- The types returned by the function literals whose bodies hold the
position, innermost first. -/
def enclosingResults : Expr → List Nat → List Ty
  | _, [] => []
  | e, i :: p => e.children[i]?.elim [] (enclosingResults · p) ++ (e.bodyResult? i).toList

/-- The node itself, then the positions in each child. -/
theorem positions_eq (e : Expr) :
    e.positions = [] :: e.children.zipIdx.flatMap fun ci => ci.1.positions.map (ci.2 :: ·) := by
  rw [positions]
  conv_rhs => rw [← attach_map_subtype_val e.children, zipIdx_map, flatMap_map]
  rfl

/-- A position goes on in the child that it names. -/
theorem mem_positions_cons {e : Expr} {i : Nat} {p : List Nat} :
    i :: p ∈ e.positions ↔ ∃ c, e.children[i]? = some c ∧ p ∈ c.positions := by
  simp only [positions_eq e, mem_cons, reduceCtorEq, false_or, mem_flatMap,
    mem_map, cons.injEq, Prod.exists, mem_zipIdx_iff_getElem?]
  constructor
  · rintro ⟨c, j, hc, q, hq, rfl, rfl⟩
    exact ⟨c, hc, hq⟩
  · rintro ⟨c, hc, hp⟩
    exact ⟨c, i, hc, p, hp, rfl, rfl⟩

/-- Exactly the positions that a node stands at are listed. -/
theorem mem_positions (e : Expr) (p : List Nat) : p ∈ e.positions ↔ (e.at? p).isSome = true := by
  induction p generalizing e with
  | nil => simp [positions_eq e, at?]
  | cons i p ih =>
    rw [mem_positions_cons, at?]
    cases e.children[i]? with
    | none => simp
    | some c => simp [ih c]

/-- Positions are listed in their lexicographic order. -/
theorem pairwise_positions (e : Expr) : e.positions.Pairwise (List.Lex (· < ·)) := by
  induction e using induction_on_children with
  | step e ih =>
  rw [positions_eq, pairwise_cons, pairwise_flatMap]
  refine ⟨fun p hp => ?_, fun ci hci => ?_, ?_⟩
  · obtain ⟨ci, -, hp⟩ := mem_flatMap.1 hp
    obtain ⟨q, -, rfl⟩ := mem_map.1 hp
    exact .nil
  · have hmem := mem_of_getElem? (mem_zipIdx_iff_getElem?.1 hci)
    exact pairwise_map.2 ((ih ci.1 hmem).imp .cons)
  · refine List.Pairwise.imp (R := fun a b => a.2 < b.2) (fun hlt p hp q hq => ?_) ?_
    · obtain ⟨p, -, rfl⟩ := mem_map.1 hp
      obtain ⟨q, -, rfl⟩ := mem_map.1 hq
      exact .rel hlt
    · rw [← pairwise_map (f := Prod.snd) (R := (· < ·)), zipIdx_map_snd]
      exact pairwise_lt_range'

end Expr

namespace Nulls

open Expr

variable {admits : Nullability} {severity : Severity} {result : Ty} {e : Expr}

/-- A value, and the type that it is used at. -/
structure Expectation where
  use : Use
  value : Expr
  target : Ty

namespace Expectation

def isBroken (admits : Nullability) (x : Expectation) : Bool :=
  x.value.isNull && !x.target.isUntyped && !admits x.target

def violation (x : Expectation) : Violation := ⟨x.use, x.target, x.value.loc⟩

end Expectation

/-- What is expected of arguments: each one that has a parameter, unless
the parameter is optional. -/
def argumentExpectations (args : List Expr) (signature : Ty) : List Expectation :=
  args.zipIdx.filterMap fun ai =>
    if signature.unwrap.isOptional ai.2 then none
    else signature.unwrap.params[ai.2]?.map fun param => ⟨.argument, ai.1, param⟩

/-- What is expected of the values at a node, in a function that returns
`result`. -/
def expectations (result : Ty) : Expr → List Expectation
  | .binary _ _ .assign lhs rhs => [⟨.assigned, rhs, lhs.type⟩]
  | .varDecl _ var (some init) => [⟨.initializer, init, var.type⟩]
  | .call _ _ callee args => argumentExpectations args callee.type
  | .new _ _ _ ctorType args => argumentExpectations args ctorType
  | .ret _ (some value) => [⟨.returned, value, result⟩]
  | _ => []

/-- What is expected at a position. Outside function literals `result` is
to be returned. -/
def expectationsAt (result : Ty) (e : Expr) (p : List Nat) : List Expectation :=
  (e.at? p).elim [] (expectations ((e.enclosingResults p).headD result))

def broken (admits : Nullability) (result : Ty) (e : Expr) : List Expectation :=
  e.positions.flatMap fun p => (expectationsAt result e p).filter (·.isBroken admits)

/-- A value is reported if its expectation is broken. -/
theorem expect_eq (x : Expectation) : expect admits x.use x.value x.target =
    ([x].filter (·.isBroken admits)).map Expectation.violation := by
  have hguard : (x.target.isUntyped || !x.value.isNull || admits x.target)
      = !x.isBroken admits := by
    unfold Expectation.isBroken
    cases x.value.isNull <;> cases x.target.isUntyped <;> simp
  rw [expect, hguard, filter_singleton]
  cases x.isBroken admits <;> rfl

/-- Arguments are reported if their expectations are broken. -/
theorem expectArgsFrom_eq (signature : Ty) (params : List Ty) (args : List Expr) (position : Nat) :
    expectArgsFrom admits signature position args (params.drop position) =
      (((args.zipIdx position).filterMap fun ai =>
        if signature.isOptional ai.2 then none
        else params[ai.2]?.map fun param => (⟨.argument, ai.1, param⟩ : Expectation)).filter
          (·.isBroken admits)).map Expectation.violation := by
  induction args generalizing position with
  | nil => rfl
  | cons arg args ih =>
    have hrest := ih (position + 1)
    rw [zipIdx_cons, filterMap_cons]
    rcases Nat.lt_or_ge position params.length with hlt | hge
    · rw [drop_eq_getElem_cons hlt, expectArgsFrom, hrest, getElem?_eq_getElem hlt]
      cases signature.isOptional position with
      | true => rfl
      | false =>
        rw [if_neg Bool.false_ne_true, expect_eq ⟨.argument, arg, params[position]⟩,
          ← map_append, ← filter_append]
        rfl
    · rw [drop_eq_nil_of_le (by omega)] at hrest
      rw [drop_eq_nil_of_le hge, getElem?_eq_none hge, Option.map_none, ite_self]
      refine Eq.trans ?_ hrest
      cases args <;> rfl

/-- The violations of a node are its broken expectations. -/
theorem ownViolations_eq (result : Ty) (e : Expr) : ownViolations admits result e =
    ((expectations result e).filter (·.isBroken admits)).map Expectation.violation := by
  have hargs (args : List Expr) (signature : Ty) : expectArgs admits args signature =
      ((argumentExpectations args signature).filter (·.isBroken admits)).map
        Expectation.violation :=
    expectArgsFrom_eq signature.unwrap signature.unwrap.params args 0
  cases e with
  | binary _ _ op lhs rhs =>
    cases op with
    | assign => exact expect_eq ⟨.assigned, rhs, lhs.type⟩
    | _ => rfl
  | varDecl _ var init =>
    cases init with
    | none => rfl
    | some init => exact expect_eq ⟨.initializer, init, var.type⟩
  | call _ _ callee args => exact hargs args callee.type
  | new _ _ _ ctorType args => exact hargs args ctorType
  | ret _ value =>
    cases value with
    | none => rfl
    | some value => exact expect_eq ⟨.returned, value, result⟩
  | _ => rfl

section Lists

variable (admits : Nullability) (result : Ty)

/-- The violations of a list of trees are those of the trees. -/
theorem violationsList_eq (es : List Expr) :
    violationsList admits result es = es.flatMap (violations admits result) := by
  induction es with
  | nil => rfl
  | cons e rest ih => rw [violationsList, ih, flatMap_cons]

theorem violationsOption_eq (part : Option Expr) :
    violationsOption admits result part = part.toList.flatMap (violations admits result) := by
  cases part <;> simp [violationsOption]

theorem violationsFields_eq (fields : List (FieldInit Expr)) :
    violationsFields admits result fields =
      (fields.map FieldInit.value).flatMap (violations admits result) := by
  induction fields with
  | nil => rfl
  | cons f rest ih => rw [violationsFields, ih, map_cons, flatMap_cons]

theorem violationsParams_eq (params : List (Param Expr)) : violationsParams admits result params =
    (params.filterMap Param.default).flatMap (violations admits result) := by
  induction params with
  | nil => rfl
  | cons p rest ih =>
    rw [violationsParams, ih, violationsOption_eq, filterMap_cons]
    cases p.default <;> simp

theorem violationsCases_eq (cases : List (Case Expr)) : violationsCases admits result cases =
    (cases.flatMap fun c => c.values ++ c.body.toList).flatMap (violations admits result) := by
  induction cases with
  | nil => rfl
  | cons c rest ih =>
    rw [violationsCases, ih, violationsList_eq, violationsOption_eq, flatMap_cons,
      flatMap_append, flatMap_append]

theorem violationsHandlers_eq (handlers : List (Handler Expr)) :
    violationsHandlers admits result handlers =
      (handlers.filterMap Handler.body).flatMap (violations admits result) := by
  induction handlers with
  | nil => rfl
  | cons h rest ih =>
    rw [violationsHandlers, ih, violationsOption_eq, filterMap_cons]
    cases h.body <;> simp

/-- Of what is no function literal: its own violations, and those below
it. -/
theorem violations_eq_of_not_isFunction (h : e.isFunction = false) : violations admits result e =
    ownViolations admits result e ++ e.children.flatMap (violations admits result) := by
  cases e with
  | function => cases h
  | _ =>
    simp [violations, ownViolations, children, violationsList_eq, violationsOption_eq,
      violationsFields_eq, violationsCases_eq, violationsHandlers_eq]

/-- The violations of a node are its own and those below it, of which the
body of a function literal has to respect the type that it returns. -/
theorem violations_eq (e : Expr) : violations admits result e = ownViolations admits result e ++
    e.children.zipIdx.flatMap fun ci =>
      violations admits ((e.bodyResult? ci.2).getD result) ci.1 := by
  have hsame {e : Expr} (cs : List (Expr × Nat)) (h : ∀ ci ∈ cs, e.bodyResult? ci.2 = none) :
      (cs.flatMap fun ci => violations admits ((e.bodyResult? ci.2).getD result) ci.1) =
        (cs.map Prod.fst).flatMap (violations admits result) := by
    rw [flatMap_map]
    exact flatMap_congr fun ci hci => by rw [h ci hci, Option.getD_none]
  cases e with
  | function loc type params inner body =>
    change violationsParams admits result params ++ violationsOption admits inner body = _
    rw [violationsParams_eq, violationsOption_eq, children, zipIdx_append,
      flatMap_append, hsame, zipIdx_map_fst]
    · cases body with
      | none => rfl
      | some => simp [ownViolations, bodyResult?]
    · intro ci hci
      have hlt := snd_lt_of_mem_zipIdx hci
      cases body with
      | none => rfl
      | some => exact if_neg (by omega)
  | _ =>
    rw [violations_eq_of_not_isFunction _ _ rfl, hsame _ fun _ _ => rfl, zipIdx_map_fst]

end Lists

/-- One step down, what is expected is what is expected in the child. -/
theorem expectationsAt_cons {c : Expr} {i : Nat} (h : e.children[i]? = some c) (p : List Nat) :
    expectationsAt result e (i :: p) = expectationsAt ((e.bodyResult? i).getD result) c p := by
  unfold expectationsAt
  rw [at?, enclosingResults, h, Option.bind_some, Option.elim_some]
  congr 2
  cases c.enclosingResults p <;> cases e.bodyResult? i <;> rfl

/-- The violations of a tree are its broken expectations. -/
theorem violations_eq_broken (result : Ty) (e : Expr) :
    violations admits result e = (broken admits result e).map Expectation.violation := by
  induction e using induction_on_children generalizing result with
  | step e ih =>
  rw [violations_eq, ownViolations_eq, broken, positions_eq, flatMap_cons, map_append,
    flatMap_assoc, map_flatMap]
  refine congrArg₂ _ rfl (flatMap_congr fun ci hci => ?_)
  have hchild := mem_zipIdx_iff_getElem?.1 hci
  rw [ih ci.1 (mem_of_getElem? hchild), broken, flatMap_map]
  simp only [expectationsAt_cons hchild]

/-! ## Walking through a tree -/

/-- The state of the check: what has been reported, how often, and the
types that returns have to respect, innermost first. -/
structure Checker where
  report : Report
  count : Nat
  results : List Ty

namespace Checker

variable (admits : Nullability) (severity : Severity)

def expect (use : Use) (value : Expr) (target : Ty) (checker : Checker) : Checker :=
  if target.isUntyped || !value.isNull || admits target then checker
  else
    { checker with
      report := checker.report.add (Violation.diagnostic severity ⟨use, target, value.loc⟩)
      count := checker.count + 1 }

def expectArgsFrom (signature : Ty) : Nat → List Expr → List Ty → Checker → Checker
  | position, arg :: args, param :: params, checker =>
    expectArgsFrom signature (position + 1) args params
      (if signature.isOptional position then checker
        else checker.expect admits severity .argument arg param)
  | _, _, _, checker => checker

/-- Checks the values at a node. A return is checked against the type on
top of the stack. -/
def visit (e : Expr) (checker : Checker) : Checker :=
  match e with
  | .binary _ _ .assign lhs rhs => checker.expect admits severity .assigned rhs lhs.type
  | .varDecl _ var (some init) => checker.expect admits severity .initializer init var.type
  | .call _ _ callee args =>
    checker.expectArgsFrom admits severity callee.type.unwrap 0 args callee.type.unwrap.params
  | .new _ _ _ ctorType args =>
    checker.expectArgsFrom admits severity ctorType.unwrap 0 args ctorType.unwrap.params
  | .ret _ (some value) =>
    match checker.results with
    | [] => checker
    | result :: _ => checker.expect admits severity .returned value result
  | _ => checker

def returning (result : Ty) (walk : Checker → Checker) (checker : Checker) : Checker :=
  let checker := walk { checker with results := result :: checker.results }
  { checker with results := checker.results.tail }

/-- Checks a node and then the nodes below it. The body of a function
literal is checked under the type that it returns. -/
def walk (e : Expr) (checker : Checker) : Checker :=
  e.children.attach.zipIdx.foldl (fun checker ci =>
    (e.bodyResult? ci.2).elim (walk ci.1.1 checker) fun result =>
      returning result (walk ci.1.1) checker) (checker.visit admits severity e)
termination_by sizeOf e
decreasing_by all_goals exact sizeOf_child ci.1.2

/-- Checks a tree in which `result` is to be returned. -/
def checkExpr (e : Expr) (result : Ty) : Checker → Checker :=
  returning result (walk admits severity e)

def reporting (checker : Checker) (found : List Violation) : Checker :=
  { checker with
    report := ⟨checker.report.entries ++ found.map (Violation.diagnostic severity)⟩
    count := checker.count + found.length }

variable {admits severity} {checker : Checker}

@[simp] theorem reporting_nil : checker.reporting severity [] = checker := by simp [reporting]

/-- Reporting in two steps is reporting all together. -/
theorem reporting_append (found found' : List Violation) :
    checker.reporting severity (found ++ found') =
      (checker.reporting severity found).reporting severity found' := by
  simp [reporting, Nat.add_assoc]

/-- A broken expectation is reported and counted. -/
theorem expect_eq_reporting (use : Use) (value : Expr) (target : Ty) :
    checker.expect admits severity use value target =
      checker.reporting severity (Nulls.expect admits use value target) := by
  unfold expect Nulls.expect
  split
  · exact reporting_nil.symm
  · rfl

theorem expectArgsFrom_eq_reporting (signature : Ty) (position : Nat) (args : List Expr)
    (params : List Ty) :
    checker.expectArgsFrom admits severity signature position args params =
      checker.reporting severity (Nulls.expectArgsFrom admits signature position args params) := by
  induction args generalizing position params checker with
  | nil => exact reporting_nil.symm
  | cons arg args ih =>
    cases params with
    | nil => exact reporting_nil.symm
    | cons =>
      rw [expectArgsFrom, ih, Nulls.expectArgsFrom, reporting_append, expect_eq_reporting]
      split
      · rw [reporting_nil]
      · rfl

/-- A node is checked against the type on top of the stack. -/
theorem visit_eq_reporting (e : Expr) : checker.visit admits severity e =
    checker.reporting severity (ownViolations admits (checker.results.headD .untyped) e) := by
  cases e with
  | binary _ _ op =>
    cases op with
    | assign => exact expect_eq_reporting ..
    | _ => exact reporting_nil.symm
  | varDecl _ var init =>
    cases init with
    | none => exact reporting_nil.symm
    | some => exact expect_eq_reporting ..
  | call | new => exact expectArgsFrom_eq_reporting ..
  | ret _ value =>
    cases value with
    | none => exact reporting_nil.symm
    | some =>
      rw [visit]
      cases checker.results with
      | nil => exact reporting_nil.symm
      | cons => exact expect_eq_reporting ..
  | _ => exact reporting_nil.symm

/-- A walk visits the node and then walks through its children. -/
theorem walk_eq (e : Expr) (checker : Checker) :
    walk admits severity e checker = e.children.zipIdx.foldl (fun checker ci =>
      (e.bodyResult? ci.2).elim (walk admits severity ci.1 checker) fun result =>
        returning result (walk admits severity ci.1) checker)
      (checker.visit admits severity e) := by
  rw [walk]
  conv_rhs => rw [← attach_map_subtype_val e.children, zipIdx_map, foldl_map]
  rfl

/-- Steps that report one after the other report all together. -/
theorem foldl_reporting {α : Type} {step : Checker → α → Checker} {as : List α}
    (found : Ty → α → List Violation) (hstep : ∀ a ∈ as, ∀ checker, step checker a =
      checker.reporting severity (found (checker.results.headD .untyped) a)) (checker : Checker) :
    as.foldl step checker =
      checker.reporting severity (as.flatMap (found (checker.results.headD .untyped))) := by
  induction as generalizing checker with
  | nil => exact reporting_nil.symm
  | cons a as ih =>
    rw [forall_mem_cons] at hstep
    rw [foldl_cons, hstep.1, ih hstep.2, flatMap_cons, reporting_append]
    rfl

/-- A type on the stack leaves what is reported after the stack is popped. -/
theorem returning_reporting {walk : Checker → Checker} {found : List Violation}
    (h : ∀ checker, checker.results.head? = some result →
      walk checker = checker.reporting severity found) (checker : Checker) :
    returning result walk checker = checker.reporting severity found := by
  rw [returning, h _ rfl]
  rfl

/-- Walking through a tree reports its violations, of returns against the
type on top of the stack, and leaves the stack as it is. -/
theorem walk_eq_reporting (e : Expr) (checker : Checker) : walk admits severity e checker =
    checker.reporting severity (violations admits (checker.results.headD .untyped) e) := by
  induction e using induction_on_children generalizing checker with
  | step e ih =>
  rw [walk_eq, visit_eq_reporting, violations_eq, reporting_append]
  refine foldl_reporting (fun result (ci : Expr × Nat) =>
    violations admits ((e.bodyResult? ci.2).getD result) ci.1) (fun ci hci checker => ?_) _
  have hwalk := ih ci.1 (mem_of_getElem? (mem_zipIdx_iff_getElem?.1 hci))
  cases e.bodyResult? ci.2 with
  | none => exact hwalk checker
  | some =>
    refine returning_reporting (fun checker hresult => ?_) checker
    rw [hwalk, headD_eq_head?_getD, hresult]
    rfl

end Checker

/-- **Every use of null that its type does not admit is reported once, in
the order of the positions.** The nodes at all positions of the tree are
looked at, each once and in lexicographic order; what is reported are the
broken expectations at them. Nothing else of the state changes. -/
theorem checkExpr_reports_broken_once (admits : Nullability) (severity : Severity)
    (checker : Checker) (e : Expr) (result : Ty) :
    checker.checkExpr admits severity e result = { checker with
          report := ⟨checker.report.entries ++
            (broken admits result e).map fun x => x.violation.diagnostic severity⟩
          count := checker.count + (broken admits result e).length } ∧
      violations admits result e = (broken admits result e).map Expectation.violation ∧
      e.positions.Pairwise (List.Lex (· < ·)) ∧
      ∀ p, p ∈ e.positions ↔ (e.at? p).isSome = true := by
  refine ⟨?_, violations_eq_broken result e, e.pairwise_positions, e.mem_positions⟩
  have hwalk (checker : Checker) (h : checker.results.head? = some result) :
      Checker.walk admits severity e checker = checker.reporting severity
        ((broken admits result e).map Expectation.violation) := by
    rw [Checker.walk_eq_reporting, headD_eq_head?_getD, h, Option.getD_some, violations_eq_broken]
  rw [Checker.checkExpr, Checker.returning_reporting hwalk, Checker.reporting, map_map, length_map]
  rfl

end Nulls

end LuaBackend
