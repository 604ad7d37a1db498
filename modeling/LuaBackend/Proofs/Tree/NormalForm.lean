import LuaBackend.NormalForm
import LuaBackend.Tree.Build
import LuaBackend.Tree.Search
import Mathlib.Tactic.ByContra

/-!
# Normal form of trees

Of the trees a front end can hand over, only two sorts cannot be brought
into normal form: one that stores into what is no place, since the target
of an assignment stays one, and one with a default value that is no plain
value, since default values stay as they are. `Storable` excludes both.
-/

namespace LuaBackend

namespace Expr

open List Option

variable {e c : Expr} {loc : Loc} {es : List Expr} {part : Option Expr} {type : Ty}
variable {position : Position} {fields : List (FieldInit Expr)} {params : List (Param Expr)}
variable {handlers : List (Handler Expr)} {cases : List (Case Expr)}

def isPlace : Expr → Bool
  | .local .. | field .. | index .. => true
  | _ => false

def storesAstray : Expr → Bool
  | binary _ _ op lhs _ => op.isAssignment && !lhs.bare.isPlace
  | unary _ _ op _ operand => op.isStep && !operand.bare.isPlace
  | _ => false

theorem isPlace_of_stores {stores : Bool} (h : (stores && !e.bare.isPlace) = false)
    (hstores : stores = true) : e.bare.isPlace = true := by
  rwa [hstores, Bool.true_and, Bool.not_eq_false'] at h

/-- The node stores into what is no place, or has a default value that is
no plain value. -/
def misstores : Expr → Bool
  | function _ _ params _ _ =>
    params.any fun p => p.default.any fun d => (d.violation .value).isSome
  | e => e.storesAstray

/-- Everything the tree stores into is a place, and its default values are
plain values. -/
def Storable (e : Expr) : Prop := e.search misstores (fun _ => false) = false

/-! ## Positions -/

def valuePositions : Expr → List Expr
  | paren .. | annot .. | block .. | tryCatch .. => []
  | function _ _ params _ _ => params.filterMap Param.default
  | forIn _ _ first _ | ite _ _ first _ _ | loop _ _ first _ => [first]
  | switch _ _ subject cases _ => subject :: cases.flatMap Case.values
  | e => e.children

def stmtPositions : Expr → List Expr
  | block _ _ exprs => exprs
  | function _ _ _ _ body | forIn _ _ _ body | loop _ _ _ body => body.toList
  | ite _ _ _ onTrue onFalse => onTrue.toList ++ onFalse.toList
  | switch _ _ _ cases default => cases.filterMap Case.body ++ default.toList
  | tryCatch _ _ body handlers => body.toList ++ handlers.filterMap Handler.body
  | _ => []

def wrapped : Expr → List Expr
  | paren _ _ inner | annot _ _ _ inner => [inner]
  | _ => []

/-- The children of a node stand in one of its three kinds of positions. -/
theorem mem_children_iff : c ∈ e.children ↔
    c ∈ e.valuePositions ∨ c ∈ e.stmtPositions ∨ c ∈ e.wrapped := by
  cases e with
  | switch => grind [valuePositions, stmtPositions, wrapped, children]
  | _ => simp [valuePositions, stmtPositions, wrapped, children]

/-- A statement passes its position on to no part. -/
theorem wrapped_of_isStatementOnly (h : e.isStatementOnly = true) : e.wrapped = [] := by
  cases e with
  | paren | annot => cases h
  | _ => rfl

def mayStand : Position → Expr → Bool
  | .value, e => !e.isStatementOnly
  | .statement, binary _ _ op lhs _ =>
    if op.isAssignment then lhs.bare.isPlace else op ≠ .nullCoalesce
  | .statement, unary _ _ op _ operand => !op.isStep || operand.bare.isPlace
  | .statement, _ => true
  | .target _, e => e.isPlace || !e.wrapped.isEmpty

@[simp] theorem violationList_nil (position : Position) : violationList position [] = none := rfl

@[simp] theorem violationList_cons (position : Position) (e : Expr) (rest : List Expr) :
    violationList position (e :: rest) = none ↔
      e.violation position = none ∧ violationList position rest = none := by
  rw [violationList, or_eq_none_iff]

/-- A list breaks no rule if no tree in it does. -/
theorem violationList_eq_none :
    violationList position es = none ↔ ∀ e ∈ es, e.violation position = none := by
  induction es with
  | nil => simp
  | cons e rest ih => rw [violationList_cons, ih, forall_mem_cons]

theorem violation_statements {stmts : List Expr} (h : violationList .statement stmts = none) :
    (Expr.statements loc stmts).violation .statement = none := h

/-- What is no operation that stores may stand as a statement. -/
theorem mayStand_statement (h : e.isMutating = false) : e.mayStand .statement = true := by
  cases e with
  | binary _ _ op =>
    cases op with
    | assign | compound | nullCoalesce => cases h
    | _ => rfl
  | unary _ _ op =>
    have hop : op.isStep = false := h
    rw [mayStand, hop]
    rfl
  | _ => rfl

theorem violationOption_eq_none :
    violationOption position part = none ↔ ∀ c ∈ part.toList, c.violation position = none := by
  cases part <;> simp [violationOption]

theorem violationFields_eq_none : violationFields fields = none ↔
    ∀ c ∈ fields.map FieldInit.value, c.violation .value = none := by
  induction fields with
  | nil => simp [violationFields]
  | cons f rest ih => simp [violationFields, ih]

theorem violationParams_eq_none : violationParams params = none ↔
    ∀ c ∈ params.filterMap Param.default, c.violation .value = none := by
  induction params with
  | nil => simp [violationParams]
  | cons p rest ih =>
    rw [violationParams, or_eq_none_iff, violationOption_eq_none, ih, filterMap_cons]
    cases p.default <;> simp

theorem violationHandlers_eq_none : violationHandlers handlers = none ↔
    ∀ c ∈ handlers.filterMap Handler.body, c.violation .statement = none := by
  induction handlers with
  | nil => simp [violationHandlers]
  | cons h rest ih =>
    rw [violationHandlers, or_eq_none_iff, violationOption_eq_none, ih, filterMap_cons]
    cases h.body <;> simp

/-- The values of cases have to be values, their bodies statements. -/
theorem violationCases_eq_none : violationCases cases = none ↔
    (∀ c ∈ cases.flatMap Case.values, c.violation .value = none) ∧
      ∀ c ∈ cases.filterMap Case.body, c.violation .statement = none := by
  induction cases with
  | nil => simp [violationCases]
  | cons k rest ih =>
    rw [violationCases, or_eq_none_iff, or_eq_none_iff, violationList_eq_none,
      violationOption_eq_none, ih, flatMap_cons, filterMap_cons, forall_mem_append]
    cases k.body <;> simp <;> grind

/-- What can be assigned to is a place that is a plain value. -/
theorem violation_target_iff : ∀ {e : Expr}, e.violation (.target loc) = none ↔
    e.bare.isPlace = true ∧ e.violation .value = none
  | paren _ _ inner => violation_target_iff (e := inner)
  | annot _ _ _ inner => violation_target_iff (e := inner)
  | .local .. | field .. | index .. => (and_iff_right rfl).symm
  | omitted | const .. | object .. | array .. | typeRef .. | call .. | new .. | binary ..
  | unary .. | function .. | varDecl .. | block .. | forIn .. | ite .. | loop .. | switch ..
  | ret .. | brk .. | cont .. | throw .. | cast .. | tryCatch .. | enumParam .. | enumIndex ..
  | ident .. => by simp [violation, Position.plain, Position.statementOnly, bare, isPlace]

/-- A tree breaks no rule if its node may stand where it does and no part
breaks one. -/
theorem violation_eq_none_iff : e.violation position = none ↔
    e.mayStand position = true ∧ (∀ c ∈ e.valuePositions, c.violation .value = none) ∧
      (∀ c ∈ e.stmtPositions, c.violation .statement = none) ∧
      ∀ c ∈ e.wrapped, c.violation position = none := by
  cases e with
  | binary loc type op =>
    cases op <;> cases position <;>
      simp [violation, mayStand, valuePositions, stmtPositions, wrapped, Position.plain,
        Position.statementOnly, isStatementOnly, isBlockLike, isMutating, isTransfer, isDeclOrLoop,
        isPlace, children, BinaryOp.isAssignment, BinaryOp.isMutating, violation_target_iff,
        and_assoc]
  | unary loc type op =>
    cases op <;> cases position <;>
      simp [violation, mayStand, valuePositions, stmtPositions, wrapped, Position.plain,
        Position.statementOnly, isStatementOnly, isBlockLike, isMutating, isTransfer, isDeclOrLoop,
        isPlace, children, UnaryOp.isStep, violation_target_iff]
  | _ =>
    cases position <;>
      simp [violation, mayStand, valuePositions, stmtPositions, wrapped, Position.plain,
        Position.statementOnly, isStatementOnly, isBlockLike, isMutating, isTransfer, isDeclOrLoop,
        isPlace, children, violationOption_eq_none, violationFields_eq_none,
        violationParams_eq_none, violationHandlers_eq_none, violationCases_eq_none,
        violationList_eq_none, or_imp, forall_and, and_assoc]

/-- A plain value may also stand as a statement. -/
theorem violation_statement_of_value (e : Expr) (h : e.violation .value = none) :
    e.violation .statement = none := by
  fun_induction Expr.bare e with
  | case1 loc type inner ih => exact ih h
  | case2 loc type name inner ih => exact ih h
  | case3 e hparen hannot =>
    cases e with
    | paren => exact (hparen _ _ _ rfl).elim
    | annot => exact (hannot _ _ _ _ rfl).elim
    | binary | unary =>
      rw [violation] at h ⊢
      split at h
      · cases h
      · rwa [if_neg ‹_›]
    | _ => first | exact h | cases h

section Search

variable {hit stop : Expr → Bool}

/-- Nothing is found in a list if nothing is found in its trees. -/
theorem searchList_eq_false :
    searchList hit stop es = false ↔ ∀ e ∈ es, e.search hit stop = false := by
  induction es with
  | nil => simp [searchList]
  | cons e rest ih => simp [searchList, ih]

theorem searchOption_eq_false :
    searchOption hit stop part = false ↔ ∀ e ∈ part, e.search hit stop = false := by
  cases part <;> simp [searchOption]

theorem searchFields_eq_false :
    searchFields hit stop fields = false ↔ ∀ f ∈ fields, f.value.search hit stop = false := by
  induction fields with
  | nil => simp [searchFields]
  | cons f rest ih => simp [searchFields, ih]

theorem searchParams_eq_false : searchParams hit stop params = false ↔
    ∀ d ∈ params.filterMap Param.default, d.search hit stop = false := by
  induction params with
  | nil => simp [searchParams]
  | cons p rest ih =>
    rw [searchParams, Bool.or_eq_false_iff, searchOption_eq_false, ih, filterMap_cons]
    cases p.default <;> simp

theorem searchCases_eq_false : searchCases hit stop cases = false ↔
    ∀ e ∈ cases.flatMap (fun c => c.values ++ c.body.toList), e.search hit stop = false := by
  induction cases with
  | nil => simp [searchCases]
  | cons c rest ih =>
    rw [searchCases, Bool.or_eq_false_iff, Bool.or_eq_false_iff, searchList_eq_false,
      searchOption_eq_false, ih, flatMap_cons]
    simp only [forall_mem_append, mem_toList, mem_def]

theorem searchHandlers_eq_false : searchHandlers hit stop handlers = false ↔
    ∀ b ∈ handlers.filterMap Handler.body, b.search hit stop = false := by
  induction handlers with
  | nil => simp [searchHandlers]
  | cons h rest ih =>
    rw [searchHandlers, Bool.or_eq_false_iff, searchOption_eq_false, ih, filterMap_cons]
    cases h.body <;> simp

/-- A tree where the search does not stop holds no node of a sort if it is
none itself and nothing directly below it holds one. -/
theorem search_eq_false_of_not_stop (e : Expr) (hstop : stop e = false) :
    e.search hit stop = false ↔ hit e = false ∧ ∀ c ∈ e.children, c.search hit stop = false := by
  cases e <;>
    simp only [search, children, hstop, Bool.or_eq_false_iff, Bool.not_false, Bool.true_and,
      searchList_eq_false, searchOption_eq_false, searchFields_eq_false, searchParams_eq_false,
      searchCases_eq_false, searchHandlers_eq_false, forall_mem_cons, forall_mem_append,
      not_mem_nil, false_implies, implies_true, List.forall_mem_map, mem_toList,
      mem_def, and_true, and_assoc]

/-- What is found below a node is found at it, if the search does not stop
there. -/
theorem search_of_child (hc : c ∈ e.children) (hstop : stop e = false)
    (h : c.search hit stop = true) : e.search hit stop = true := by
  by_contra hne
  have hnone := ((search_eq_false_of_not_stop e hstop).1 (Bool.eq_false_iff.2 hne)).2 c hc
  rw [hnone] at h
  exact nomatch h

end Search

/-- A search that never stops finds nothing if no node is a hit. -/
theorem search_eq_false {hit : Expr → Bool} (e : Expr) : e.search hit (fun _ => false) = false ↔
    hit e = false ∧ ∀ c ∈ e.children, c.search hit (fun _ => false) = false :=
  search_eq_false_of_not_stop e rfl

theorem storable_iff (e : Expr) :
    Storable e ↔ e.misstores = false ∧ ∀ c ∈ e.children, Storable c := search_eq_false e

theorem Storable.child (h : Storable e) (hc : c ∈ e.children) : Storable c :=
  ((storable_iff e).1 h).2 c hc

end Expr

end LuaBackend
