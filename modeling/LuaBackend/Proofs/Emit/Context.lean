import LuaBackend.Proofs.Emit.Calls

/-!
# Printing keeps the context

The calls that writing makes go down the tree, so the loops whose writing
is started can be listed (`started`), once for each time that it is. Calls
after the first that fails are not made. The counter of labels moves by
one for each listed loop, and nothing else in a context changes, whether
text comes out or not.
-/

namespace LuaBackend.Emit

open List Expr

variable {n : UInt32} {way : Way} {c : Call} {l : Expr} {α : Type}

/-! ## Calls go down the tree -/

def parts (cs : List Call) : List Expr := cs.map Call.part

section Parts

variable {scope : Scope} {es args : List Expr} {part : Option Expr} {callee : Expr}

@[simp] theorem parts_nil : parts [] = [] := rfl

@[simp] theorem parts_cons (c : Call) (cs : List Call) : parts (c :: cs) = c.part :: parts cs := rfl

@[simp] theorem parts_append (cs cs' : List Call) : parts (cs ++ cs') = parts cs ++ parts cs' :=
  map_append

@[simp] theorem parts_callValues : parts (callValues scope es) = es := by
  simp [parts, callValues, Function.comp_def]

@[simp] theorem parts_callPart : parts (callPart scope way part) = part.toList := by
  simp [parts, callPart, Function.comp_def]

@[simp] theorem parts_callSequence {last : Expr → Way} :
    ∀ es : List Expr, parts (callSequence scope last es) = es
  | [] => rfl
  | [_] => rfl
  | e :: f :: rest => congrArg (e :: ·) (parts_callSequence (f :: rest))

theorem parts_callBranch : parts (callBranch scope way part) ⊆ part.toList := by
  unfold callBranch
  split <;> simp

theorem parts_callReceiver {ref : MemberRef} :
    parts (callReceiver scope ref part) ⊆ part.toList := by
  unfold callReceiver
  split
  · simp
  · cases part with
    | none => simp
    | some =>
      rw [Option.filter_some]
      split <;> simp

/-- Given code writes arguments only. -/
theorem parts_callCode : ∀ pieces : List CodePiece, parts (callCode scope args pieces) ⊆ args
  | [] => nil_subset _
  | .overflow :: _ => nil_subset _
  | .char _ :: rest => parts_callCode rest
  | .arg position :: rest => by
    rw [callCode, parts_append, parts_callPart]
    refine append_subset.2 ⟨fun e he => ?_, parts_callCode rest⟩
    exact mem_of_getElem? (Option.mem_toList.1 he)

theorem parts_callIntrinsic {name : String} : parts (callIntrinsic scope name args) ⊆ args := by
  unfold callIntrinsic
  split
  · split
    · simp
    · exact parts_callCode _
  · split
    · split
      · simp
      · rw [parts_callValues]
        exact fun e => mem_of_mem_tail
    · split
      · split <;> simp
      · split <;> simp

theorem parts_callCallee : parts (callCallee scope callee args) ⊆ callee :: args := by
  have hargs : args ⊆ callee :: args := subset_cons_self _ _
  unfold callCallee
  split
  · exact List.Subset.trans parts_callIntrinsic hargs
  · split <;> simp
  · unfold callMethod
    split
    · simp
    · split
      · split <;> simp
      · split <;> simp
  · simp

theorem parts_callLoop {test : LoopTest} {head : Expr} {label : UInt32} :
    parts (callLoop scope test head part label) ⊆ head :: part.toList := by
  cases test <;> simp [callLoop]

/-- For its value a node writes parts of it. -/
theorem parts_callsOfValue (e : Expr) : parts (callsOfValue scope e) ⊆ e.children := by
  cases e with
  | field => exact parts_callReceiver
  | call => exact parts_callCallee
  | binary | unary =>
    rw [callsOfValue]
    split <;> simp [children]
  | _ => simp [callsOfValue, children]

theorem parts_callCases {subject : Expr} {cases : List (Case Expr)} :
    parts (cases.flatMap fun c => callValues scope (c.values.flatMap fun v => [subject, v]) ++
      callPart scope (.body false) c.body) ⊆
      subject :: cases.flatMap fun c => c.values ++ c.body.toList := by
  induction cases with
  | nil => simp
  | cons =>
    rw [flatMap_cons, parts_append, parts_append, parts_callValues, parts_callPart]
    grind

theorem parts_callsOfStmt (e : Expr) : parts (callsOfStmt scope n e) ⊆ e.children := by
  have hvalue : parts (callsOfValue scope e) ⊆ e.children := parts_callsOfValue e
  cases e with
  | binary loc type op =>
    cases op with
    | compound =>
      rw [callsOfStmt]
      split <;> simp [children]
    | _ => simp [callsOfStmt, children]
  | unary =>
    rw [callsOfStmt]
    split <;> simp [children]
  | loop | forIn =>
    rw [callsOfStmt]
    exact parts_callLoop
  | ite loc type cond onTrue onFalse =>
    have hfalse (way : Way) : parts (callBranch scope way onFalse) ⊆ onFalse.toList :=
      parts_callBranch
    rw [callsOfStmt, parts_append, children]
    split <;> grind [parts_append, parts_callValues, parts_callPart]
  | switch loc type subject cases default =>
    have hdefault (way : Way) : parts (callBranch scope way default) ⊆ default.toList :=
      parts_callBranch
    have hcases := @parts_callCases scope subject cases
    rw [callsOfStmt, children]
    split <;> grind [parts_append]
  | tryCatch loc type body handlers =>
    -- Only the last handler is written.
    have hlast :
        (handlers.getLast?.bind Handler.body).toList ⊆ handlers.filterMap Handler.body := by
      intro body hbody
      obtain ⟨h, hmem, hpart⟩ := Option.bind_eq_some_iff.1 (Option.mem_toList.1 hbody)
      exact mem_filterMap.2 ⟨h, mem_of_getLast? hmem, hpart⟩
    rw [callsOfStmt, children, parts_append, parts_callPart, parts_callPart]
    grind
  | block | varDecl | ret | throw => simp [callsOfStmt, children]
  | _ => exact hvalue

theorem parts_callsOfElse (e : Expr) : parts (callsOfElse scope n e) ⊆ e.children := by
  have hstmt : parts (callsOfStmt scope n e) ⊆ e.children := parts_callsOfStmt e
  cases e with
  | block loc type es =>
    cases es with
    | nil => exact hstmt
    | cons only rest =>
      cases rest with
      | nil =>
        rw [callsOfElse]
        split
        · simp [children]
        · exact hstmt
      | cons => exact hstmt
  | ite loc type cond onTrue onFalse =>
    have hfalse : parts (callBranch scope .orElse onFalse) ⊆ onFalse.toList := parts_callBranch
    rw [callsOfElse, children]
    grind [parts_append, parts_callValues, parts_callPart]
  | _ => exact hstmt

/-- A call writes parts of its node, whatever the way. -/
theorem parts_calls (c : Call) (n : UInt32) : parts (c.calls n) ⊆ c.part.children := by
  obtain ⟨e, way, scope⟩ := c
  have hvalue : parts (callsOfValue scope e) ⊆ e.children := parts_callsOfValue e
  have hstmt : parts (callsOfStmt scope n e) ⊆ e.children := parts_callsOfStmt e
  have helse : parts (callsOfElse scope n e) ⊆ e.children := parts_callsOfElse e
  cases way with
  | value =>
    cases e with
    | paren | annot => exact List.Subset.refl _
    | _ => exact hvalue
  | stmt =>
    cases e with
    | paren | annot => exact List.Subset.refl _
    | _ => exact hstmt
  | body =>
    cases e with
    | paren | annot => exact List.Subset.refl _
    | block => simp [Call.calls, children]
    | _ => exact hstmt
  | orElse =>
    cases e with
    | paren | annot => exact List.Subset.refl _
    | _ => exact helse
  | receiver =>
    cases e with
    | paren | annot => exact List.Subset.refl _
    | field => simp [Call.calls, children]
    | _ => exact nil_subset _

/-- Only nodes directly below a node are written for it. -/
theorem part_mem_children {t : Call} (h : t ∈ c.calls n) : t.part ∈ c.part.children :=
  parts_calls c n (mem_map_of_mem h)

end Parts

def visitAll : (cs : List Call) → ((t : Call) → t ∈ cs → UInt32 → List Expr) → UInt32 → List Expr
  | [], _, _ => []
  | c :: rest, visit, n => visit c mem_cons_self n ++
    match c.run n with
    | .ok _ n' => visitAll rest (fun t ht => visit t (mem_cons_of_mem c ht)) n'
    | .error _ _ => []

/-- The loops with a continue that a call starts to write when the counter
is `n`, in order. -/
def started (c : Call) (n : UInt32) : List Expr :=
  (if c.startsLoop then [c.part] else []) ++
    visitAll (c.calls n) (fun t _ m => started t m) (c.start n)
termination_by sizeOf c.part
decreasing_by exact sizeOf_child (part_mem_children ‹_›)

theorem exists_of_mem_visitAll : ∀ {cs : List Call}
    {visit : (t : Call) → t ∈ cs → UInt32 → List Expr} {n : UInt32},
    l ∈ visitAll cs visit n → ∃ t ht m, l ∈ visit t ht m
  | [], _, _, h => absurd h not_mem_nil
  | c :: rest, visit, n, h => by
    rw [visitAll, mem_append] at h
    rcases h with h | h
    · exact ⟨c, _, n, h⟩
    · cases hrun : c.run n with
      | error =>
        rw [hrun] at h
        exact absurd h not_mem_nil
      | ok _ =>
        rw [hrun] at h
        obtain ⟨t, ht, m, hm⟩ := exists_of_mem_visitAll h
        exact ⟨t, _, m, hm⟩

theorem needsLabel_of_startsLoop (h : c.startsLoop = true) : needsLabel c.part = true := by
  obtain ⟨e, way, scope⟩ := c
  cases way with
  | value | receiver => cases h
  | _ => exact h

/-- What is started is a loop of the tree that has a continue. -/
theorem holds_of_mem_started (e : Expr) : ∀ {way : Way} {scope : Scope} {n : UInt32},
    l ∈ started ⟨e, way, scope⟩ n → e.Holds l ∧ needsLabel l = true := by
  induction e using induction_on_children with
  | step e ih =>
    intro way scope n h
    rw [started, mem_append] at h
    rcases h with h | h
    · split at h
      · rename_i hstarts
        obtain rfl := mem_singleton.1 h
        exact ⟨.self, needsLabel_of_startsLoop hstarts⟩
      · exact absurd h not_mem_nil
    · obtain ⟨t, ht, m, hm⟩ := exists_of_mem_visitAll h
      obtain ⟨hl, hlabel⟩ := ih t.part (part_mem_children ht) hm
      exact ⟨.inside (part_mem_children ht) hl, hlabel⟩

/-- Calls move the counter by as much as they list. -/
theorem left_runAll : ∀ {cs : List Call} {visit : (t : Call) → t ∈ cs → UInt32 → List Expr}
    (n : UInt32), (∀ (t : Call) ht m, left (t.run m) = m + .ofNat (visit t ht m).length) →
      left (runAll cs n) = n + .ofNat (visitAll cs visit n).length
  | [], _, n, _ => (UInt32.add_zero n).symm
  | c :: rest, visit, n, h => by
    have hc := h c mem_cons_self n
    rw [visitAll, length_append, UInt32.ofNat_add, ← UInt32.add_assoc, ← hc, runAll]
    cases hrun : c.run n with
    | error fault n' =>
      rw [run_bind_error hrun]
      exact (UInt32.add_zero n').symm
    | ok _ n' =>
      rw [run_bind_ok hrun]
      exact left_runAll n' fun t ht => h t (mem_cons_of_mem c ht)

/-- A call leaves the counter where its calls leave it. -/
theorem left_run_eq (c : Call) (n : UInt32) :
    left (c.run n) = left (runAll (c.calls n) (c.start n)) := by
  rcases c.run_tallies n with hsame | ⟨n', fault, hcalls, hfault⟩
  · rw [hsame]
  · rw [hcalls, hfault]
    rfl

/-- The counter moves by one for each started loop; by induction on the tree. -/
theorem left_run (e : Expr) : ∀ {way : Way} {scope : Scope} {n : UInt32},
    left (Call.run ⟨e, way, scope⟩ n) = n + .ofNat (started ⟨e, way, scope⟩ n).length := by
  induction e using induction_on_children with
  | step e ih =>
    intro way scope n
    rw [left_run_eq, started, length_append, UInt32.ofNat_add, ← UInt32.add_assoc]
    rw [left_runAll _ fun t ht m => ih t.part (part_mem_children ht), Call.start]
    congr 1
    split
    · rfl
    · exact (UInt32.add_zero n).symm

/-- In a context only the counter can change. -/
theorem left_inContext (act : EmitM α) (context : Context) : left (inContext act.run context) =
    { context with nextLabel := left (quietly act context.scope context.nextLabel) } := by
  cases hact : act context.scope context.nextLabel with
  | ok =>
    rw [inContext_of_ok hact, quietly, run_bind_ok hact]
    rfl
  | error =>
    rw [inContext_of_error hact, quietly, run_bind_error hact]
    rfl

theorem left_bind_text (act : Write α) (f : α → Context → String) (context : Context) :
    left ((act >>= fun a => get >>= fun c => pure (f a c)) context) = left (act context) := by
  cases hact : act context with
  | ok =>
    rw [run_bind_ok hact]
    rfl
  | error =>
    rw [run_bind_error hact]
    rfl

/-- **Printing keeps the context.** Printing a tree, as an expression or as
statements, only moves the counter of labels, by the number of loops with a
continue whose writing it started, whether it ends with a text or with a
fault. -/
theorem printing_keeps_context (e : Expr) (context : Context) :
    left (expression e context) = { context with
      nextLabel := context.nextLabel +
        .ofNat (started ⟨e, .value, context.scope⟩ context.nextLabel).length } ∧
    left (statements e context) = { context with
      nextLabel := context.nextLabel +
        .ofNat (started ⟨e, .body false, context.scope⟩ context.nextLabel).length } ∧
    ∀ way scope n, ∀ l ∈ started ⟨e, way, scope⟩ n, e.Holds l ∧ needsLabel l = true := by
  refine ⟨?_, ?_, fun way scope n l => holds_of_mem_started e⟩
  · rw [← left_run, expression_eq]
    exact (left_bind_text _ _ context).trans (left_inContext (valueOf e) context)
  · rw [← left_run, statements_eq]
    exact (left_bind_text _ _ context).trans (left_inContext (blockOf e) context)

end LuaBackend.Emit
