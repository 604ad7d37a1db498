import LuaBackend.Proofs.Normalize.Prediction
import Mathlib.Algebra.Ring.Nat

/-!
# Normalization ends

A loop whose condition needs statements is lowered as another loop, with a
guard in its body, and a switch whose case values need statements as a
chain of branches. So lowering is no recursion on the parts of a tree.
`lowerWith again e` is one level of it: what `e` becomes if `again` lowers
every tree that is entered on the way.

`Expr.weight` counts the nodes of a tree and charges such loops and
switches for the nodes that are made for them. Every tree that is entered
weighs less, and lowering is the only function that answers as `lowerWith`
asks.
-/

namespace LuaBackend

open List Expr

namespace Expr

variable {loc : Loc} {c cond : Expr} {test : LoopTest} {body : Option Expr}

def guard (loc : Loc) (cond : Expr) : Expr :=
  .mkIte loc (.mkUnary loc .not false (.mkParen loc cond)) (some (.brk loc)) none

/-- The guard, except that the first time round `first` is cleared
instead. -/
def guardAfterFirst (loc : Loc) (first : Var) (cond : Expr) : Expr :=
  .ite loc .bool (.local loc first)
    (some (.binary loc .bool .assign (.local loc first) (.boolLit loc false)))
    (some (guard loc cond))

def guardedLoop (loc : Loc) (guard : Expr) (body : Option Expr) : Expr :=
  .loop loc .before (.boolLit loc true) (some (.mkBlock loc (guard :: body.toList)))

def equal (subject : Var) (v : Expr) : Expr := .binary v.loc .bool .eq (.local v.loc subject) v

def anyEqual (loc : Loc) (subject : Var) : List Expr → Expr
  | [] => .boolLit loc false
  | first :: rest =>
    rest.foldl (fun cond v => .binary v.loc .bool .or cond (equal subject v)) (equal subject first)

def branchChain (loc : Loc) (type : Ty) (subject : Var) (default : Option Expr) :
    List (Case Expr) → Option Expr
  | [] => default
  | ⟨values, body⟩ :: rest =>
    some (.ite loc type (anyEqual loc subject values) (some (body.getD (.block loc .void [])))
      (branchChain loc type subject default rest))

def casesHoist (cases : List (Case Expr)) : Bool := cases.any fun c => c.values.any hoists

def charge : Expr → Nat
  | loop _ _ cond _ => if cond.hoists then 12 else 0
  | switch _ _ _ cases _ =>
    if casesHoist cases then (cases.map fun c => 3 + 3 * c.values.length).sum else 0
  | _ => 0

def weight (e : Expr) : Nat :=
  1 + e.charge + (e.children.attach.map fun c => weight c.1).sum
termination_by sizeOf e
decreasing_by exact sizeOf_child c.2

def weights (es : List Expr) : Nat := (es.map weight).sum

theorem weight_eq (e : Expr) : e.weight = 1 + e.charge + weights e.children := by
  rw [weight, weights]
  conv_rhs => rw [← attach_map_subtype_val e.children, map_map]
  rfl

@[simp] theorem weights_nil : weights [] = 0 := rfl

@[simp] theorem weights_cons (e : Expr) (es : List Expr) :
    weights (e :: es) = e.weight + weights es := rfl

@[simp] theorem weights_append (es es' : List Expr) :
    weights (es ++ es') = weights es + weights es' := by simp [weights]

theorem weight_le_weights {es : List Expr} (h : c ∈ es) : c.weight ≤ weights es := by
  induction h with
  | head => exact Nat.le_add_right _ _
  | tail e _ ih => exact Nat.le_trans ih (Nat.le_add_left _ _)

/-- The parts of a node weigh less than the node. -/
theorem weight_child {e : Expr} (h : c ∈ e.children) : c.weight < e.weight := by
  have := weight_le_weights h
  rw [weight_eq e]
  omega

/-- The guarded loop weighs less than the loop it replaces. -/
theorem weight_guardedLoop (h : cond.hoists = true) :
    (guardedLoop loc (guard loc cond) body).weight < (loop loc test cond body).weight := by
  simp only [guardedLoop, guard, mkBlock, mkIte, mkUnary, mkParen, boolLit, weight_eq, charge,
    hoists, children, h, if_pos, Bool.false_eq_true, if_false, Option.toList_some,
    Option.toList_none, append_nil, weights_cons, weights_nil]
  omega

theorem weight_guardedLoop_afterFirst (first : Var) (h : cond.hoists = true) :
    (guardedLoop loc (guardAfterFirst loc first cond) body).weight <
      (loop loc test cond body).weight := by
  simp only [guardedLoop, guardAfterFirst, guard, mkBlock, mkIte, mkUnary, mkParen, boolLit,
    weight_eq, charge, hoists, children, h, if_pos, Bool.false_eq_true, if_false,
    Option.toList_some, Option.toList_none, append_nil, cons_append, nil_append,
    weights_cons, weights_nil]
  omega

/-- A comparison weighs two nodes more than the value. -/
theorem weight_equal (subject : Var) (v : Expr) : (equal subject v).weight = v.weight + 2 := by
  rw [weight_eq, equal, children, weights_cons, weights_cons, weights_nil, weight_eq (.local _ _)]
  simp only [charge, children, weights_nil]
  omega

/-- Each further value costs a comparison and a disjunction. -/
theorem weight_anyEqual (loc : Loc) (subject : Var) (values : List Expr) :
    (anyEqual loc subject values).weight ≤ 1 + weights values + 3 * values.length := by
  have hfold (rest : List Expr) (cond : Expr) :
      (rest.foldl (fun cond v => binary v.loc .bool .or cond (equal subject v)) cond).weight =
        cond.weight + weights rest + 3 * rest.length := by
    induction rest generalizing cond with
    | nil => rfl
    | cons v rest ih =>
      rw [foldl_cons, ih, weight_eq (.binary ..), children, weights_cons, weights_cons,
        weight_equal]
      simp only [charge, weights_nil, weights_cons, length_cons]
      omega
  cases values with
  | nil => simp [anyEqual, weight_eq, charge, children, boolLit]
  | cons =>
    rw [anyEqual, hfold, weight_equal, weights_cons, length_cons]
    omega

theorem weight_branchChain (loc : Loc) (type : Ty) (subject : Var) (default : Option Expr)
    (cases : List (Case Expr)) :
    weights (branchChain loc type subject default cases).toList ≤
      (cases.map fun c => 3 + 3 * c.values.length).sum +
        weights (cases.flatMap fun c => c.values ++ c.body.toList) + weights default.toList := by
  induction cases with
  | nil => simp [branchChain]
  | cons c =>
    have hcond := weight_anyEqual loc subject c.values
    have hbody : (c.body.getD (.block loc .void [])).weight ≤ 1 + weights c.body.toList := by
      cases c.body with
      | none => simp [weight_eq, charge, children]
      | some => simp
    rw [branchChain, Option.toList_some, weights_cons, weights_nil, weight_eq (.ite ..)]
    simp only [charge, children, Option.toList_some, cons_append, nil_append,
      weights_cons, map_cons, sum_cons, flatMap_cons, weights_append]
    omega

/-- The chain of branches weighs less than the switch it replaces. -/
theorem weight_chain {type : Ty} {subject : Expr} {cases : List (Case Expr)} {default : Option Expr}
    {var : Var} {chain : Expr} (h : casesHoist cases = true)
    (hchain : branchChain loc type var default cases = some chain) :
    chain.weight < (switch loc type subject cases default).weight := by
  have hle := weight_branchChain loc type var default cases
  rw [hchain, Option.toList_some, weights_cons, weights_nil] at hle
  rw [weight_eq (.switch ..), charge, if_pos h, children, weights_cons, weights_append]
  omega

end Expr

namespace Normalize

open Expr

/-! ## One level of lowering -/

/-- Lowers a tree, with `again` for the trees entered on the way. -/
def lowerWith (again : Expr → Lowering) : Expr → Lowering
  | e@.omitted | e@(.const ..) | e@(.local ..) | e@(.typeRef ..) | e@(.ident ..) => .leaf e
  | e@(.brk _) | e@(.cont _) => .jump e
  | .field loc type ref receiver => .field loc type ref (receiver.map again)
  | .index loc type base position => .index loc type (again base) (again position)
  | .paren loc type inner => .paren loc type (again inner)
  | .annot loc type name inner => .annot loc type name (again inner)
  | .object loc type fields => .object loc type (fields.map fun f => ⟨f.name, again f.value⟩)
  | .array loc type elements => .array loc type (elements.map again)
  | .call loc type (.field memberLoc memberType ref receiver) args =>
    .callMember loc type memberLoc memberType ref (receiver.map again) (args.map again)
  | .call loc type callee args => .call loc type (again callee) (args.map again)
  | .new loc type cls ctorType args => .new loc type cls ctorType (args.map again)
  | .binary loc type op lhs rhs => .binary loc type op (again lhs) (again rhs)
  | .unary loc type op isPost operand => .unary loc type op isPost (again operand)
  | .function loc type params result body => .function loc type params result (body.map again)
  | .varDecl loc var init => .varDecl loc var (init.map again)
  | .block loc type exprs => .block loc type (exprs.map again)
  | .forIn loc var iterator body => .forIn loc var (again iterator) (body.map again)
  | .ite loc type cond onTrue onFalse =>
    .ite loc type (again cond) (onTrue.map again) (onFalse.map again)
  | e@(.loop loc test cond body) => .ofStmt e fun _ =>
    if cond.hoists then
      match test with
      | .before => (again (guardedLoop loc (guard loc cond) body)).stmt none
      | .after => do
        let first ← freshTemp .bool
        let stmts ← (again (guardedLoop loc (guardAfterFirst loc first cond) body)).stmt none
        return .varDecl loc first (some (.boolLit loc true)) :: stmts
    else Lowering.plainLoop loc test (again cond) (body.map again)
  | e@(.switch loc type subject cases default) => .ofStmt e fun assignee =>
    if casesHoist cases then do
      let h ← (again subject).value
      let s ← freshTemp h.value.type
      let decl := h.stmts ++ [.varDecl loc s (some h.value)]
      match branchChain loc type s default cases with
      | none => return decl
      | some chain => return decl ++ (← (again chain).stmt assignee)
    else
      Lowering.plainSwitch loc (again subject)
        (cases.map fun c => ⟨c.values.map again, c.body.map again⟩) (default.map again) assignee
  | .ret loc value => .ret loc (value.map again)
  | .throw loc value => .throw loc (again value)
  | .cast loc type checked inner => .cast loc type checked (again inner)
  | .tryCatch loc type body handlers =>
    .tryCatch loc type (body.map again) (handlers.map fun h => ⟨h.var, h.body.map again⟩)
  | .enumParam loc type value ctor slot => .enumParam loc type ctor slot (again value)
  | .enumIndex loc value => .enumIndex loc (again value)

section Congr

variable {again again' : Expr → Lowering} {e : Expr}

theorem map_congr_of_mem {part : Option Expr} (h : ∀ c ∈ part.toList, again c = again' c) :
    part.map again = part.map again' := by
  cases part with
  | none => rfl
  | some c => exact congrArg some (h c (.head _))

theorem lowerWith_congr (h : ∀ c, c.weight < e.weight → again c = again' c) :
    lowerWith again e = lowerWith again' e := by
  have hpart (c : Expr) (hc : c ∈ e.children) : again c = again' c := h c (weight_child hc)
  have hlist {es : List Expr} (hes : ∀ c ∈ es, c ∈ e.children) : es.map again = es.map again' :=
    map_congr_left fun c hc => hpart c (hes c hc)
  have hoption {part : Option Expr} (hes : ∀ c ∈ part.toList, c ∈ e.children) :
      part.map again = part.map again' := map_congr_of_mem fun c hc => hpart c (hes c hc)
  cases e with
  | omitted | const | «local» | typeRef | ident | brk | cont => rfl
  | paren _ _ inner | annot _ _ _ inner | unary _ _ _ _ inner | throw _ inner | cast _ _ _ inner
  | enumParam _ _ inner | enumIndex _ inner => rw [lowerWith, lowerWith, hpart inner (.head _)]
  | index _ _ base position =>
    rw [lowerWith, lowerWith, hpart base (.head _), hpart position (.tail _ (.head _))]
  | binary _ _ _ lhs rhs =>
    rw [lowerWith, lowerWith, hpart lhs (.head _), hpart rhs (.tail _ (.head _))]
  | field | varDecl | ret => rw [lowerWith, lowerWith, hoption fun _ => id]
  | array _ _ es | new _ _ _ _ es | block _ _ es =>
    rw [lowerWith, lowerWith, hlist fun c (hc : c ∈ es) => hc]
  | object loc type =>
    refine congrArg (Lowering.object loc type) (map_congr_left fun f hf => ?_)
    rw [hpart f.value (mem_map_of_mem hf)]
  | call loc type callee args =>
    have hargs := hlist fun c (hc : c ∈ args) => .tail _ hc
    cases callee with
    | field memberLoc memberType ref receiver =>
      -- The receiver stands two levels down.
      have hreceiver : receiver.map again = receiver.map again' := map_congr_of_mem fun c hc =>
        h c (Nat.lt_trans (weight_child (e := .field memberLoc memberType ref receiver) hc)
          (weight_child (.head _)))
      rw [lowerWith, lowerWith, hargs, hreceiver]
    | _ => exact congrArg₂ (Lowering.call loc type) (hpart _ (.head _)) hargs
  | function _ _ _ _ =>
    rw [lowerWith, lowerWith, hoption fun _ => mem_append_right _]
  | forIn _ _ iterator =>
    rw [lowerWith, lowerWith, hpart iterator (.head _), hoption fun _ hc => .tail _ hc]
  | ite _ _ cond onTrue onFalse =>
    rw [lowerWith, lowerWith, hpart cond (.head _),
      hoption fun _ hc => .tail _ (mem_append_left onFalse.toList hc),
      hoption fun _ hc => .tail _ (mem_append_right onTrue.toList hc)]
  | loop loc test cond body =>
    have hcond := hpart cond (.head _)
    have hbody := hoption fun c (hc : c ∈ body.toList) => .tail _ hc
    refine congrArg (Lowering.ofStmt _) (funext fun _ => ?_)
    by_cases hh : cond.hoists = true
    · rw [if_pos hh, if_pos hh]
      cases test with
      | before => rw [h _ (weight_guardedLoop hh)]
      | after => simp only [h _ (weight_guardedLoop_afterFirst _ hh)]
    · rw [if_neg hh, if_neg hh, hcond, hbody]
  | switch loc type subject cases default =>
    have hsubject := hpart subject (.head _)
    have hdefault := hoption fun c (hc : c ∈ default.toList) => .tail _ (mem_append_right _ hc)
    refine congrArg (Lowering.ofStmt _) (funext fun assignee => ?_)
    by_cases hh : casesHoist cases = true
    · rw [if_pos hh, if_pos hh, hsubject]
      refine bind_congr fun x => bind_congr fun s => ?_
      cases hchain : branchChain loc type s default cases with
      | none => rfl
      | some chain => simp only [h chain (weight_chain hh hchain)]
    · rw [if_neg hh, if_neg hh, hsubject, hdefault]
      refine congrArg (Lowering.plainSwitch loc _ · _ _) (map_congr_left fun c hc => ?_)
      have hmem {v : Expr} (hv : v ∈ c.values ++ c.body.toList) :
          v ∈ (switch loc type subject cases default).children :=
        .tail _ (mem_append_left _ (mem_flatMap.2 ⟨c, hc, hv⟩))
      rw [hlist fun v hv => hmem (mem_append_left _ hv),
        hoption fun v hv => hmem (mem_append_right _ hv)]
  | tryCatch loc type body =>
    have hbody := hoption fun c (hc : c ∈ body.toList) => mem_append_left _ hc
    rw [lowerWith, lowerWith, hbody]
    refine congrArg (Lowering.tryCatch loc type _) (map_congr_left fun k hk => ?_)
    rw [hoption fun c hc => mem_append_right _ (mem_filterMap.2 ⟨k, hk, Option.mem_toList.1 hc⟩)]

end Congr

/-! ## Lowering goes level by level -/

/-- The guarded loop is lowered as the loop made in lowering. -/
theorem lower_guardedLoop (loc : Loc) (g : Expr) (body : Option Expr) :
    (lower (guardedLoop loc g body)).stmt none =
      Lowering.guardedLoop loc (lower g) (body.map lower) := by
  have hparts : lowerList (g :: body.toList) = lower g :: (body.map lower).toList := by
    cases body with
    | none => rfl
    | some => rfl
  have htype : (((g :: body.toList).getLast?.map type).getD .void) =
      ((lower g :: (body.map lower).toList).getLast?.map fun p => p.source.type).getD .void := by
    rw [← hparts, lowerList_eq_map, getLast?_map, Option.map_map]
    simp only [Function.comp_def, source_lower]
  rw [Lowering.guardedLoop, ← htype, ← hparts]
  rfl

theorem lower_guard (loc : Loc) (cond : Expr) :
    lower (guard loc cond) = Lowering.guard loc (lower cond) := by
  rw [Lowering.guard, source_lower]
  rfl

theorem lower_equal (subject : Var) (v : Expr) :
    lower (equal subject v) = .binary (lower v).source.loc .bool .eq
      (.leaf (.local (lower v).source.loc subject)) (lower v) := by
  rw [source_lower]
  rfl

/-- The tests and branches, likewise. -/
theorem lower_anyEqual (loc : Loc) (subject : Var) (values : List Expr) :
    lower (anyEqual loc subject values) = Lowering.anyEqual loc subject (values.map lower) := by
  cases values with
  | nil => rfl
  | cons =>
    rw [anyEqual, map_cons, Lowering.anyEqual, foldl_map]
    dsimp only
    rw [← lower_equal]
    refine (foldl_hom lower fun cond v => ?_).symm
    rw [← lower_equal, source_lower]
    rfl

theorem lower_branchChain (loc : Loc) (type : Ty) (subject : Var) (default : Option Expr)
    (cases : List (Case Expr)) :
    (branchChain loc type subject default cases).map lower =
      Lowering.branchChain loc type subject (default.map lower)
        (cases.map fun c => ⟨c.values.map lower, c.body.map lower⟩) := by
  induction cases with
  | nil => rfl
  | cons c rest ih =>
    have hbody : lower (c.body.getD (.block loc .void [])) =
        (c.body.map lower).getD (.block loc .void []) := by
      cases c.body with
      | none => rfl
      | some => rfl
    rw [branchChain, map_cons, Lowering.branchChain, ← lower_anyEqual, ← ih, ← hbody,
      Option.map_some, lower, lowerOption_eq_map, lowerOption_eq_map, Option.map_some]

theorem lower_loop (loc : Loc) (test : LoopTest) (cond : Expr) (body : Option Expr) :
    lower (.loop loc test cond body) = lowerWith lower (.loop loc test cond body) := by
  change Lowering.ofStmt _ _ = Lowering.ofStmt _ _
  rw [source_lower, source_lowerOption, lowerOption_eq_map]
  refine congrArg (Lowering.ofStmt _) (funext fun _ => ?_)
  cases cond.hoists with
  | false => rfl
  | true =>
    cases test with
    | before => exact (lower_guard loc cond ▸ lower_guardedLoop ..).symm
    | after =>
      refine bind_congr fun first => ?_
      rw [lower_guardedLoop, Lowering.guardAfterFirst, ← lower_guard]
      rfl

theorem lower_switch (loc : Loc) (type : Ty) (subject : Expr) (cases : List (Case Expr))
    (default : Option Expr) :
    lower (.switch loc type subject cases default) =
      lowerWith lower (.switch loc type subject cases default) := by
  have hcases : ((lowerCases cases).any fun c => c.values.any fun v => v.source.hoists) =
      casesHoist cases := by
    rw [lowerCases_eq_map, any_map]
    simp only [Function.comp_def, any_map, source_lower, casesHoist]
  rw [lower, lowerWith, Lowering.switch, hcases, source_lower, source_lowerCases,
    source_lowerOption, lowerCases_eq_map, lowerOption_eq_map]
  refine congrArg (Lowering.ofStmt _) (funext fun assignee => ?_)
  cases casesHoist cases with
  | false => rfl
  | true =>
    refine bind_congr fun h => bind_congr fun s => ?_
    dsimp only
    rw [← lower_branchChain]
    cases branchChain loc type s default cases with
    | none => rfl
    | some => rfl

/-- Lowering answers as one level of it asks. -/
theorem lower_eq_lowerWith (e : Expr) : lower e = lowerWith lower e := by
  cases e with
  | omitted | const | «local» | typeRef | ident | brk | cont | paren | annot | unary | throw | cast
  | enumParam | enumIndex | index | binary => rfl
  | field | varDecl | ret | function | forIn | ite =>
    simp only [lower, lowerWith, lowerOption_eq_map]
  | array | new | block => simp only [lower, lowerWith, lowerList_eq_map]
  | object => rw [lower, lowerWith, lowerFields_eq_map]
  | call loc type callee args =>
    cases callee with
    | field => rw [lower, lowerWith, lowerOption_eq_map, lowerList_eq_map]
    | _ => exact congrArg (Lowering.call loc type _) (lowerList_eq_map args)
  | loop => exact lower_loop ..
  | switch => exact lower_switch ..
  | tryCatch => rw [lower, lowerWith, lowerOption_eq_map, lowerHandlers_eq_map]

/-- Nothing else answers so; by induction on the weight. -/
theorem eq_lower_of_lowerWith {again : Expr → Lowering} (h : ∀ e, again e = lowerWith again e) :
    again = lower := by
  have hall (n : Nat) : ∀ e : Expr, e.weight < n → again e = lower e := by
    induction n with
    | zero => exact fun _ he => absurd he (Nat.not_lt_zero _)
    | succ n ih =>
      intro e he
      rw [h e, lower_eq_lowerWith e]
      exact lowerWith_congr fun c hc => ih c (Nat.lt_of_lt_of_le hc (Nat.le_of_lt_succ he))
  exact funext fun e => hall _ e (Nat.lt_succ_self _)

/-- **Normalization ends on every tree.** The parts of a node weigh less
than the node, and so do the guarded loops and the chain of branches that
are made for it. One level of lowering looks at lighter trees only, so
there is exactly one lowering, and asking for the value, the function or
the statements of a tree gives an answer, unless no temporaries are
left. -/
theorem lowering_enters_lighter_trees : (∀ e c : Expr, c ∈ e.children → c.weight < e.weight) ∧
    (∀ loc test cond body first, cond.hoists = true →
      (guardedLoop loc (guard loc cond) body).weight < (loop loc test cond body).weight ∧
      (guardedLoop loc (guardAfterFirst loc first cond) body).weight <
        (loop loc test cond body).weight) ∧
    (∀ loc type subject cases default s chain, casesHoist cases = true →
      branchChain loc type s default cases = some chain →
        chain.weight < (switch loc type subject cases default).weight) ∧
    (∀ (again again' : Expr → Lowering) (e : Expr),
      (∀ c : Expr, c.weight < e.weight → again c = again' c) →
        lowerWith again e = lowerWith again' e) ∧
    (∀ again : Expr → Lowering, (∀ e, again e = lowerWith again e) ↔ again = lower) ∧
    ∀ e : Expr, OnlyExhausts (normalizeValue e) ∧ OnlyExhausts (normalizeFunction e) ∧
      ∀ assignee, OnlyExhausts (normalize e assignee) := by
  refine ⟨fun e c => weight_child, fun loc test cond body first h => ?_,
    fun loc type subject cases default s chain => weight_chain,
    fun again again' e => lowerWith_congr, fun again => ⟨eq_lower_of_lowerWith, ?_⟩, fun e => ?_⟩
  · exact ⟨weight_guardedLoop h, weight_guardedLoop_afterFirst first h⟩
  · rintro rfl
    exact lower_eq_lowerWith
  · have hp := predicted_lower e
    exact ⟨hp.value.onlyExhausts, hp.value.onlyExhausts.bind fun _ => onlyExhausts_pure _,
      fun assignee => (hp.body assignee).bind fun _ => onlyExhausts_pure _⟩

/-- `while (x = true) {}` becomes a loop with more nodes, and is lowered
the same if nothing is known of trees that weigh as much. -/
theorem lowering_enters_lighter_trees_while :
    let x : Expr := .local {} ⟨0, "x", .bool⟩
    let e : Expr := .loop {} .before (.binary {} .bool .assign x (.boolLit {} true)) none
    let below (c : Expr) : Lowering := if c.weight < e.weight then lower c else .leaf .omitted
    (∀ c : Expr, c.weight < e.weight → lower c = below c) ∧
      lowerWith lower e = lowerWith below e := by
  intro x e below
  have h (c : Expr) (hc : c.weight < e.weight) : lower c = below c := (if_pos hc).symm
  exact ⟨h, lowering_enters_lighter_trees.2.2.2.1 lower below e h⟩

end Normalize

end LuaBackend
