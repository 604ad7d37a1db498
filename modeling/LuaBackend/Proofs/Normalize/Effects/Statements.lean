import LuaBackend.Proofs.Normalize.Effects.Values

/-!
# Effects of statements

The account is right about statements, loops and switches too, and so
about the lowering of every tree. Loops and switches that are lowered as
other nodes have the account of those nodes, which comes to the same.
-/

namespace LuaBackend.Normalize

open Expr List Lowering Account Balance

variable {x : Site}

namespace Audited

variable {e : Expr} {var : Var} {part : Option Lowering} {test : LoopTest}

attribute [grind] sequenceEnds sequenceBalance handlerEnds handlerBalance caseEnds caseBalance

variable {loc : Loc} {type : Ty} {cases : List (Case Lowering)} {a c : Account}
variable {as : List (Case Account)} {ls : List Lowering} {cond subject : Lowering}
variable {body default : Option Lowering} {b d : Option Account} {hs : List (Handler Lowering)}

/-! ## Statements -/

/-- A statement that is always written. -/
theorem plainStmt {stmts : Norm (List Expr)} {b : Balance}
    (h : Puts x stmts true (e.occurrences x) b) :
    Audited x (.ofStmt e fun _ => stmts) (.plainStmt e b) :=
  ofStmt fun assignee => by
    rw [Nat.zero_mul, Nat.add_zero]
    exact h

theorem puts_around {part : Lowering} (f : Expr → Expr) (h : Audited x part a)
    (hf : ∀ v, (f v).occurrences x = v.occurrences x) :
    Puts x (do let h ← part.value; return h.stmts ++ [f h.value]) true
      (part.source.occurrences x) (a.balance .taken) := by
  refine h.value.bind fun y hy => yields_pure ⟨by simp, ?_⟩
  grind

theorem jump (h : e.occurrences x = 0) : Audited x (.jump e) (.plainStmt e 0) :=
  plainStmt (yields_pure ⟨rfl, by simp [Balanced, occurrencesList, h]⟩)

/-- A return without a value has no effects. -/
theorem ret {value : Option Lowering} {a : Option Account} (h : Option.Rel (Audited x) value a) :
    Audited x (.ret loc value)
      (.plainStmt (.ret loc (value.map Lowering.source)) (takenOption a)) := by
  cases h with
  | none => exact plainStmt (yields_pure ⟨rfl, rfl⟩)
  | some hv => exact plainStmt (puts_around (.ret loc <| some ·) hv fun _ => rfl)

theorem throw {value : Lowering} (h : Audited x value a) :
    Audited x (.throw loc value) (.plainStmt (.throw loc value.source) (a.balance .taken)) :=
  plainStmt (puts_around (.throw loc) h fun _ => rfl)

theorem varDecl {init : Option Lowering} {a : Option Account} (h : Option.Rel (Audited x) init a) :
    Audited x (.varDecl loc var init) (.varDecl loc var a) := by
  cases h with
  | none => exact plainStmt (yields_pure ⟨rfl, rfl⟩)
  | @some i a hi =>
    unfold Lowering.varDecl Account.varDecl
    simp only [Option.map_some, ← hi.source]
    refine plainStmt ?_
    by_cases hb : i.source.bare.isBlockLike = true
    · simp only [if_pos hb]
      refine (hi.stmt (some (.local loc var))).bind fun stmts hs => yields_pure ⟨rfl, ?_⟩
      simpa [Balanced, occurrencesList, occurrences, occurrencesOption, Use.ofStmt] using hs.2
    · simp only [if_neg hb]
      exact puts_around (.varDecl loc var <| some ·) hi fun _ => rfl

/-- Statements in order; the last one may be stored. -/
theorem sequence {as : List Account} (h : List.Forall₂ (Audited x) ls as) (assignee : Option Expr) :
    Puts x (sequence assignee ls) (sequenceEmits assignee.isSome as)
      (occurrencesList x (ls.map Lowering.source) + sequenceEnds as * occurrencesOption x assignee)
      (sequenceBalance assignee.isSome as) := by
  induction h with
  | nil => exact yields_pure ⟨rfl, by simp [Balanced, occurrencesList, sequenceEnds,
      sequenceBalance]⟩
  | @cons l a ls as hl hrest ih =>
    cases hrest with
    | nil => exact hl.stmt assignee
    | @cons m b ls as hm hrest =>
      refine (hl.stmt none).bind fun stmts hs => ih.bind fun rest hr => yields_pure ⟨?_, ?_⟩
      · exact (isEmpty_append ..).trans ((congrArg₂ and hs.1 hr.1).trans (Bool.not_or _ _).symm)
      · have hsb := hs.2
        grind

theorem sources_option {a : Option Account} (h : Option.Rel (Audited x) part a) :
    part.map Lowering.source = a.map Account.source := by
  cases h with
  | none => rfl
  | some hl => exact congrArg some hl.source

theorem sources_list {as : List Account} (h : List.Forall₂ (Audited x) ls as) :
    ls.map Lowering.source = as.map Account.source := by
  induction h with
  | nil => rfl
  | cons hl _ ih => exact congrArg₂ cons hl.source ih

/-- A block that yields nothing has the value null. -/
theorem block {exprs : List Lowering} {as : List Account} (h : List.Forall₂ (Audited x) exprs as) :
    Audited x (.block loc type exprs) (.block loc type as) := by
  have hbody (assignee : Option Expr) := sequence h assignee
  have hstmt (assignee : Option Expr) : Puts x (do
        let stmts ← Lowering.sequence assignee exprs
        return if stmts.isEmpty then [] else [Expr.statements loc stmts])
      (sequenceEmits assignee.isSome as)
      ((Expr.block loc type (exprs.map Lowering.source)).occurrences x +
        sequenceEnds as * occurrencesOption x assignee)
      (sequenceBalance assignee.isSome as) := by
    refine (hbody assignee).bind fun stmts hs => yields_pure ?_
    obtain ⟨hemits, hb⟩ := hs
    cases stmts with
    | nil => exact ⟨hemits, hb⟩
    | cons => exact ⟨hemits, by simpa [occurrencesList, occurrences, statements] using hb⟩
  have hnode : Audited x (.ofStmt (.block loc type (exprs.map Lowering.source)) fun assignee => do
        let stmts ← Lowering.sequence assignee exprs
        return if stmts.isEmpty then [] else [Expr.statements loc stmts])
      (.ofStmt (.block loc type (exprs.map Lowering.source)) (sequenceEmits · as)
        (sequenceEnds as) (sequenceBalance · as)) := Audited.ofStmt hstmt
  unfold Account.block
  rw [← sources_list h]
  cases h with
  | nil =>
    have hplain : Takes x (pure ⟨[], .nullLit loc⟩) .plain 0 0 :=
      yields_pure ⟨⟨rfl, rfl, rfl, rfl⟩, rfl⟩
    exact ⟨rfl, hplain, fun _ => hplain, hnode.stmt, fun assignee => (hnode.stmt assignee).mono
      fun _ hs => hs.2⟩
  | cons =>
    refine ⟨rfl, hnode.value, hnode.target, hnode.stmt, fun assignee => ?_⟩
    have hs := (hbody assignee).mono fun _ hs => hs.2
    cases assignee <;> exact hs

/-- Each branch may store into the assignee. -/
theorem ite {onTrue onFalse : Option Lowering} {t f : Option Account} (hc : Audited x cond c)
    (ht : Option.Rel (Audited x) onTrue t) (hf : Option.Rel (Audited x) onFalse f) :
    Audited x (.ite loc type cond onTrue onFalse) (.ite loc type c t f) := by
  unfold Lowering.ite Account.ite
  rw [← hc.source, ← sources_option ht, ← sources_option hf]
  refine ofStmt fun assignee => hc.value.bind fun y hy => (yields_scope ht assignee).bind fun e he => ?_
  have hyb := hy.2
  cases hf with
  | none =>
    refine yields_pure ⟨by simp, ?_⟩
    grind
  | some hf =>
    refine (yields_scope (.some hf) assignee).bind fun e' he' => yields_pure ⟨by simp, ?_⟩
    grind

theorem forIn {iterator : Lowering} (hi : Audited x iterator a) (hb : Option.Rel (Audited x) body b) :
    Audited x (.forIn loc var iterator body) (.forIn loc var a b) := by
  unfold Lowering.forIn Account.forIn
  rw [← hi.source, ← sources_option hb]
  refine plainStmt (hi.value.bind fun y hy => (yields_scope hb none).bind fun e he => ?_)
  refine yields_pure ⟨by simp, ?_⟩
  grind

theorem handlers {as : List (Handler Account)}
    (h : List.Forall₂ (fun l a => l.var = a.var ∧ Option.Rel (Audited x) l.body a.body) hs as)
    (assignee : Option Expr) :
    Yields (handlers assignee hs) fun r => Balanced (occurrencesHandlers x r)
      (occurrencesHandlers x (hs.map fun h => ⟨h.var, h.body.map Lowering.source⟩) +
        handlerEnds as * occurrencesOption x assignee)
      (handlerBalance assignee.isSome as) := by
  induction h with
  | nil => exact yields_pure (by simp [Balanced, occurrencesHandlers, handlerEnds, handlerBalance])
  | @cons l a _ _ hl _ ih =>
    refine (yields_scope hl.2 assignee).bind fun e he => ih.bind fun r hr => yields_pure ?_
    grind

theorem sources_handlers {as : List (Handler Account)}
    (h : List.Forall₂ (fun l a => l.var = a.var ∧ Option.Rel (Audited x) l.body a.body) hs as) :
    (hs.map fun h => (⟨h.var, h.body.map Lowering.source⟩ : Handler Expr)) =
      as.map fun h => ⟨h.var, h.body.map Account.source⟩ := by
  induction h with
  | nil => rfl
  | cons hl _ ih => rw [map_cons, map_cons, ih, hl.1, sources_option hl.2]

/-- The body and the handlers may store into the assignee. -/
theorem tryCatch {catches : List (Handler Lowering)} {a : Option Account}
    {as : List (Handler Account)} (hb : Option.Rel (Audited x) body a)
    (hh : List.Forall₂ (fun l a => l.var = a.var ∧ Option.Rel (Audited x) l.body a.body) catches as) :
    Audited x (.tryCatch loc type body catches) (.tryCatch loc type a as) := by
  unfold Lowering.tryCatch Account.tryCatch
  rw [← sources_option hb, ← sources_handlers hh]
  refine ofStmt fun assignee => (yields_scope hb assignee).bind fun e he =>
    (handlers hh assignee).bind fun r hr => yields_pure ⟨rfl, ?_⟩
  grind

/-- A condition without statements to lose. -/
theorem puts_plainLoop (hc : Audited x cond c)
    (hquiet : ∀ s, Gives cond.value s fun h _ => h.stmts = []) (hb : Option.Rel (Audited x) body b) :
    Puts x (plainLoop loc test cond body) true
      (cond.source.occurrences x + occurrencesOption x (body.map Lowering.source))
      (c.balance .taken + scope b false) := by
  refine (Yields.and_gives hc.value hquiet).bind fun y hy => (yields_scope hb none).bind fun e he => ?_
  obtain ⟨⟨_, hyb⟩, hnone⟩ := hy
  refine yields_pure ⟨rfl, ?_⟩
  rw [hnone] at hyb
  grind

def guardAccount (loc : Loc) (cond : Lowering) (c : Account) : Account :=
  .ite loc .void (.unary loc .bool .not false (.wrap (.paren loc cond.source.type cond.source) c))
    (some (.plainStmt (.brk loc) 0)) none

/-- The guard breaks where the condition fails. -/
theorem guard (h : Audited x cond c) : Audited x (.guard loc cond) (guardAccount loc cond c) :=
  ite (unary (paren h)) (.some (jump rfl)) .none

/-- A guard clones and loses what its condition does. -/
theorem balance_guardAccount (loc : Loc) (cond : Lowering) (c : Account) :
    (guardAccount loc cond c).balance .dropped = c.balance .taken := by
  change c.balance .taken + (0 + 0) = c.balance .taken
  rfl

def guardAfterFirstAccount (loc : Loc) (first : Var) (cond : Lowering) (c : Account) : Account :=
  .ite loc .bool (.leaf (.local loc first))
    (some (.binary loc .bool .assign (.leaf (.local loc first)) (.leaf (.boolLit loc false))))
    (some (guardAccount loc cond c))

theorem guardAfterFirst {first : Var} (h : Audited x cond c) :
    Audited x (.guardAfterFirst loc first cond) (guardAfterFirstAccount loc first cond c) :=
  ite (leaf rfl) (.some (binary (leaf rfl) (leaf rfl) (.leaf id))) (.some (guard h))

theorem balance_guardAfterFirstAccount (loc : Loc) (first : Var) (cond : Lowering) (c : Account) :
    (guardAfterFirstAccount loc first cond c).balance .dropped = c.balance .taken := by
  change 0 + ((0 + 0 + ofCopies 1 0) + (guardAccount loc cond c).balance .dropped) = _
  rw [balance_guardAccount, zero_add, zero_add]
  exact zero_add _

theorem puts_guardedLoop {test : Lowering} {g : Account} (hg : Audited x test g)
    (hb : Option.Rel (Audited x) body b) :
    Puts x (Lowering.guardedLoop loc test body) true
      (test.source.occurrences x + occurrencesOption x (body.map Lowering.source))
      (g.balance .dropped + scope b false) := by
  have hforever : Audited x (.leaf (.boolLit loc true)) (.leaf (.boolLit loc true)) := leaf rfl
  have hquiet (s : TempSupply) : Gives (Lowering.leaf (.boolLit loc true)).value s
      fun h _ => h.stmts = [] := gives_pure rfl
  have hparts : List.Forall₂ (Audited x) (test :: body.toList) (g :: b.toList) := by
    cases hb with
    | none => exact .cons hg .nil
    | some hb => exact .cons hg (.cons hb .nil)
  refine (puts_plainLoop hforever hquiet (.some (block hparts))).mono fun stmts hs => ⟨hs.1, ?_⟩
  have hsb := hs.2
  have hbalance (type : Ty) : scope (some (.block loc type (g :: b.toList))) false =
      g.balance .dropped + scope b false := by
    cases b <;> rfl
  have hocc (type : Ty) : occurrencesOption x
        ((some (Lowering.block loc type (test :: body.toList))).map Lowering.source) =
      test.source.occurrences x + occurrencesOption x (body.map Lowering.source) := by
    cases body <;> rfl
  rw [hocc, hbalance] at hsb
  change Balanced _ (0 + _) (0 + _) at hsb
  rw [Nat.zero_add, zero_add] at hsb
  exact hsb

/-- Statements of the condition go into the body. -/
theorem loop (hc : Audited x cond c) (hp : Predicted cond) (hb : Option.Rel (Audited x) body b) :
    Audited x (.loop loc test cond body) (.loop loc test c b) := by
  unfold Lowering.loop Account.loop
  rw [← hc.source, ← sources_option hb]
  refine plainStmt ?_
  split
  · rename_i hn
    refine puts_plainLoop hc (fun s => (hp.value s).mono fun _ _ hq => ?_) hb
    exact (hq (by simpa using hn)).stmts
  · cases test with
    | before =>
      refine (puts_guardedLoop (guard hc) hb).mono fun stmts hs => ⟨hs.1, ?_⟩
      have hsb := hs.2
      rw [balance_guardAccount] at hsb
      exact hsb
    | after =>
      refine (yields_freshTemp fun t ht => ht).bind fun first _ => ?_
      refine (puts_guardedLoop (guardAfterFirst hc) hb).bind fun stmts hs => yields_pure ⟨rfl, ?_⟩
      have hsb := hs.2
      rw [balance_guardAfterFirstAccount] at hsb
      simp only [Balanced, Lowering.guardAfterFirst, Lowering.guard, Lowering.ite, Lowering.unary,
        Lowering.paren, Lowering.jump, Lowering.leaf, Lowering.source_binary,
        Lowering.source_ofStmt, Lowering.source_ofValue, Option.map_some, Option.map_none,
        occurrencesList, occurrencesOption, occurrences, boolLit] at hsb ⊢
      omega

/-! ## Switches -/

def AuditedCase (x : Site) (l : Case Lowering) (a : Case Account) : Prop :=
  List.Forall₂ (Audited x) l.values a.values ∧ Option.Rel (Audited x) l.body a.body

theorem sources_cases (h : List.Forall₂ (AuditedCase x) cases as) : (cases.map fun c =>
    (⟨c.values.map Lowering.source, c.body.map Lowering.source⟩ : Case Expr)) =
    as.map fun c => ⟨c.values.map Account.source, c.body.map Account.source⟩ := by
  induction h with
  | nil => rfl
  | cons hc _ ih => rw [map_cons, map_cons, ih, sources_list hc.1, sources_option hc.2]

/-- The values of a case are taken without statements. -/
theorem yields_caseValues {as : List Account} (h : List.Forall₂ (Audited x) ls as)
    (hp : ∀ l ∈ ls, Predicted l) (hn : ∀ l ∈ ls, l.source.hoists = false) :
    Yields (caseValues ls) fun vs => Balanced (occurrencesList x vs)
      (occurrencesList x (ls.map Lowering.source)) (takenAll as) := by
  induction h with
  | nil => exact yields_pure rfl
  | @cons l a _ _ hl _ ih =>
    rw [forall_mem_cons] at hp hn
    refine (Yields.and_gives hl.value hp.1.value).bind fun y hy => ?_
    obtain ⟨⟨_, hyb⟩, hquiet⟩ := hy
    have hnone := (hquiet hn.1).stmts
    rw [if_pos (by rw [hnone]; rfl)]
    refine (ih hp.2 hn.2).bind fun vs hvs => yields_pure ?_
    rw [hnone] at hyb
    grind

theorem yields_plainCases (h : List.Forall₂ (AuditedCase x) cases as)
    (hp : ∀ c ∈ cases, ∀ v ∈ c.values, Predicted v)
    (hn : ∀ c ∈ cases, ∀ v ∈ c.values, v.source.hoists = false) (assignee : Option Expr) :
    Yields (plainCases assignee cases) fun cs => Balanced (occurrencesCases x cs)
      (occurrencesCases x (cases.map fun c =>
          ⟨c.values.map Lowering.source, c.body.map Lowering.source⟩) +
        caseEnds as * occurrencesOption x assignee)
      (caseBalance assignee.isSome as) := by
  induction h with
  | nil => exact yields_pure (by simp [Balanced, occurrencesCases, caseEnds, caseBalance])
  | @cons c a _ _ hc _ ih =>
    rw [forall_mem_cons] at hp hn
    refine (yields_caseValues hc.1 hp.1 hn.1).bind fun vs hvs => ?_
    refine (yields_scope hc.2 assignee).bind fun e he => (ih hp.2 hn.2).bind fun cs hcs => ?_
    refine yields_pure ?_
    grind

def WritesSwitch (x : Site) (subject : Lowering) (cases : List (Case Lowering))
    (default : Option Lowering) (a : Account) (as : List (Case Account)) (d : Option Account)
    (assignee : Option Expr) (stmts : Norm (List Expr)) : Prop :=
  Puts x stmts true (subject.source.occurrences x + (occurrencesCases x (cases.map fun c =>
        ⟨c.values.map Lowering.source, c.body.map Lowering.source⟩) +
        occurrencesOption x (default.map Lowering.source)) +
      (caseEnds as + scopeEnds d) * occurrencesOption x assignee)
    (a.balance .taken + (caseBalance assignee.isSome as + scope d assignee.isSome))

theorem puts_plainSwitch (hs : Audited x subject a) (hc : List.Forall₂ (AuditedCase x) cases as)
    (hp : ∀ c ∈ cases, ∀ v ∈ c.values, Predicted v)
    (hn : ∀ c ∈ cases, ∀ v ∈ c.values, v.source.hoists = false)
    (hd : Option.Rel (Audited x) default d) (assignee : Option Expr) :
    WritesSwitch x subject cases default a as d assignee
      (Lowering.plainSwitch loc subject cases default assignee) := by
  refine hs.value.bind fun y hy => (yields_spill_leaves hy.1 _).bind fun z hz => ?_
  refine (yields_plainCases hc hp hn assignee).bind fun cs hcs => ?_
  have hyb := hy.2
  cases hd with
  | none =>
    refine yields_pure ⟨by simp, ?_⟩
    grind
  | some hd =>
    refine (yields_scope (.some hd) assignee).bind fun e he => yields_pure ⟨by simp, ?_⟩
    grind

theorem balance_or {e : Account} (h : e.balance .stored = e.balance .taken) :
    (Account.binary loc type .or c e).balance .taken = c.balance .taken + e.balance .taken := by
  change (if e.source.hoists then _ else _ : Account).balance .taken = _
  split
  · exact congrArg (c.balance .taken + ·) h
  · rfl

/-- The test of a case has the effects of its values only. -/
theorem anyEqual {subject : Var} {as : List Account} (h : List.Forall₂ (Audited x) ls as)
    (hp : ∀ l ∈ ls, Predicted l) :
    ∃ a, Audited x (.anyEqual loc subject ls) a ∧ a.balance .taken = takenAll as ∧
      a.source.occurrences x = occurrencesList x (ls.map Lowering.source) := by
  have hequal {l : Lowering} {a : Account} (hl : Audited x l a) (hp : Predicted l) :
      ∃ e, Audited x (.binary l.source.loc .bool .eq (.leaf (.local l.source.loc subject)) l) e ∧
        e.balance .taken = a.balance .taken ∧ e.balance .stored = a.balance .taken :=
    ⟨_, binary (leaf rfl) hl hp, zero_add _, zero_add _⟩
  have hfold : ∀ {ls : List Lowering} {as : List Account}, List.Forall₂ (Audited x) ls as →
      (∀ l ∈ ls, Predicted l) → ∀ {cond : Lowering} {c : Account}, Audited x cond c →
      ∃ a, Audited x (ls.foldl (fun cond v => .binary v.source.loc .bool .or cond
          (.binary v.source.loc .bool .eq (.leaf (.local v.source.loc subject)) v)) cond) a ∧
        a.balance .taken = c.balance .taken + takenAll as ∧ a.source.occurrences x =
          cond.source.occurrences x + occurrencesList x (ls.map Lowering.source) := by
    intro ls as h
    induction h with
    | nil => exact fun _ cond c hc => ⟨c, hc, rfl, congrArg _ hc.source.symm⟩
    | @cons l a _ _ hl _ ih =>
      intro hp cond c hc
      rw [forall_mem_cons] at hp
      obtain ⟨e, he, htaken, hstored⟩ := hequal hl hp.1
      have hpe : Predicted (.binary l.source.loc .bool .eq (.leaf (.local l.source.loc subject)) l) :=
        .binary (.leaf id) hp.1
      have hor : Audited x (.binary l.source.loc .bool .or cond _) (.binary _ .bool .or c e) :=
        binary hc he hpe
      obtain ⟨r, hr, hrtaken, hrocc⟩ := ih hp.2 hor
      refine ⟨r, hr, ?_, ?_⟩
      · rw [hrtaken, balance_or (hstored.trans htaken.symm), htaken, add_assoc]
        rfl
      · rw [hrocc]
        simp only [Lowering.source_binary, occurrences, occurrencesList, map_cons,
          Lowering.leaf, Lowering.source_ofValue]
        omega
  cases h with
  | nil => exact ⟨_, leaf rfl, rfl, rfl⟩
  | @cons l a ls as hl hrest =>
    rw [forall_mem_cons] at hp
    obtain ⟨e, he, htaken, _⟩ := hequal hl hp.1
    obtain ⟨r, hr, hrtaken, hrocc⟩ := hfold hrest hp.2 he
    refine ⟨r, hr, ?_, ?_⟩
    · rw [hrtaken, htaken]
      rfl
    · refine hrocc.trans ?_
      simp only [Lowering.source_binary, occurrences, occurrencesList, map_cons,
        Lowering.leaf, Lowering.source_ofValue]
      omega

/-- The chain of branches that stands for the cases. -/
theorem branchChain {subject : Var} (hd : Option.Rel (Audited x) default d)
    (h : List.Forall₂ (AuditedCase x) cases as) (hp : ∀ c ∈ cases, ∀ v ∈ c.values, Predicted v) :
    ∃ a, Option.Rel (Audited x) (Lowering.branchChain loc type subject default cases) a ∧
      (∀ stored, scope a stored = caseBalance stored as + scope d stored) ∧
      scopeEnds a = caseEnds as + scopeEnds d ∧
      occurrencesOption x ((Lowering.branchChain loc type subject default cases).map
          Lowering.source) =
        occurrencesCases x (cases.map fun c =>
            ⟨c.values.map Lowering.source, c.body.map Lowering.source⟩) +
          occurrencesOption x (default.map Lowering.source) := by
  induction h with
  | nil =>
    refine ⟨d, hd, fun stored => (zero_add _).symm, (Nat.zero_add _).symm, ?_⟩
    exact (Nat.zero_add _).symm
  | @cons c a _ _ hc _ ih =>
    obtain ⟨values, body⟩ := c
    rw [forall_mem_cons] at hp
    obtain ⟨e, he, hetaken, heocc⟩ : ∃ e, Audited x (.anyEqual loc subject values) e ∧ _ :=
      anyEqual hc.1 hp.1
    obtain ⟨r, hr, hrscope, hrends, hrocc⟩ := ih hp.2
    -- a case without a body is one with an empty block
    have hbody : ∃ b, Audited x (body.getD (.block loc .void [])) b ∧
        (∀ stored, b.balance (.ofStmt stored) = scope a.body stored) ∧
        b.ends = scopeEnds a.body ∧
        (body.getD (.block loc .void [])).source.occurrences x =
          occurrencesOption x (body.map Lowering.source) := by
      have hrel := hc.2
      dsimp only at hrel
      generalize a.body = ab at hrel
      cases hrel with
      | none => exact ⟨_, block .nil, fun stored => by cases stored <;> rfl, rfl, rfl⟩
      | some hb => exact ⟨_, hb, fun _ => rfl, rfl, rfl⟩
    obtain ⟨b, hb, hbscope, hbends, hbocc⟩ := hbody
    refine ⟨_, .some (ite he (.some hb) hr), fun stored => ?_, ?_, ?_⟩
    · have hbalance : Account.scope (some (Account.ite loc type e (some b) r)) stored =
          e.balance .taken + (b.balance (.ofStmt stored) + scope r stored) := by
        cases stored <;> rfl
      rw [hbalance, hetaken, hbscope, hrscope, caseBalance, add_assoc, add_assoc]
    · change b.ends + scopeEnds r = _
      rw [hbends, hrends, caseEnds, Nat.add_assoc]
    · simp only [Lowering.branchChain, Option.map_some, Lowering.ite, Lowering.source_ofStmt,
        occurrencesOption, occurrences, map_cons, occurrencesCases, he.source, heocc, hbocc, hrocc]
      omega

/-- The subject goes into a temporary. -/
theorem puts_chainedSwitch (hs : Audited x subject a) (hc : List.Forall₂ (AuditedCase x) cases as)
    (hp : ∀ c ∈ cases, ∀ v ∈ c.values, Predicted v) (hd : Option.Rel (Audited x) default d)
    (assignee : Option Expr) : WritesSwitch x subject cases default a as d assignee
      (Lowering.chainedSwitch loc type subject cases default assignee) := by
  refine hs.value.bind fun y hy => (yields_freshTemp fun t ht => ht).bind fun t ht => ?_
  have hyb := hy.2
  obtain ⟨r, hr, hrscope, hrends, hrocc⟩ :
      ∃ r, Option.Rel (Audited x) (Lowering.branchChain loc type t default cases) r ∧ _ :=
    branchChain hd hc hp
  rw [← hrscope, ← hrends, ← hrocc]
  generalize Lowering.branchChain loc type t default cases = chain at hr ⊢
  cases hr with
  | none =>
    refine yields_pure ⟨by simp, ?_⟩
    grind
  | some hl =>
    refine (hl.stmt assignee).bind fun stmts hstmts => yields_pure ⟨by simp, ?_⟩
    grind

theorem switch (hs : Audited x subject a) (hc : List.Forall₂ (AuditedCase x) cases as)
    (hp : ∀ c ∈ cases, ∀ v ∈ c.values, Predicted v) (hd : Option.Rel (Audited x) default d) :
    Audited x (.switch loc type subject cases default) (.switch loc type a as d) := by
  unfold Lowering.switch Account.switch
  rw [← hs.source, ← sources_cases hc, ← sources_option hd]
  refine ofStmt fun assignee => ?_
  split
  · exact puts_chainedSwitch hs hc hp hd assignee
  · rename_i hn
    refine puts_plainSwitch hs hc hp (fun c hmem v hv => ?_) hd assignee
    rw [Bool.eq_false_iff]
    exact fun h => hn (any_eq_true.2 ⟨c, hmem, any_eq_true.2 ⟨v, hv, h⟩⟩)

theorem rel_option (h : ∀ l ∈ part, Audited x l (account x l.source)) :
    Option.Rel (Audited x) part (accountOption x (part.map Lowering.source)) := by
  cases part with
  | none => exact .none
  | some l => exact .some (h l rfl)

theorem rel_list (h : ∀ l ∈ ls, Audited x l (account x l.source)) :
    List.Forall₂ (Audited x) ls (accountList x (ls.map Lowering.source)) := by
  induction ls with
  | nil => exact .nil
  | cons l rest ih =>
    rw [forall_mem_cons] at h
    exact .cons h.1 (ih h.2)

theorem rel_fields {fields : List (FieldInit Lowering)}
    (h : ∀ f ∈ fields, Audited x f.value (account x f.value.source)) :
    List.Forall₂ (Audited x) (fields.map FieldInit.value)
      (accountFields x (fields.map fun f => ⟨f.name, f.value.source⟩)) := by
  induction fields with
  | nil => exact .nil
  | cons f rest ih =>
    rw [forall_mem_cons] at h
    exact .cons h.1 (ih h.2)

theorem rel_cases (h : ∀ c ∈ cases, (∀ v ∈ c.values, Audited x v (account x v.source)) ∧
      ∀ b ∈ c.body, Audited x b (account x b.source)) :
    List.Forall₂ (AuditedCase x) cases (accountCases x (cases.map fun c =>
      ⟨c.values.map Lowering.source, c.body.map Lowering.source⟩)) := by
  induction cases with
  | nil => exact .nil
  | cons c rest ih =>
    rw [forall_mem_cons] at h
    exact .cons ⟨rel_list h.1.1, rel_option h.1.2⟩ (ih h.2)

theorem rel_handlers (h : ∀ c ∈ hs, ∀ b ∈ c.body, Audited x b (account x b.source)) :
    List.Forall₂ (fun l a => l.var = a.var ∧ Option.Rel (Audited x) l.body a.body) hs
      (accountHandlers x (hs.map fun h => ⟨h.var, h.body.map Lowering.source⟩)) := by
  induction hs with
  | nil => exact .nil
  | cons c rest ih =>
    rw [forall_mem_cons] at h
    exact .cons ⟨rfl, rel_option h.1⟩ (ih h.2)

/-- Every way of making a lowering keeps to the account. -/
theorem compositional (x : Site) :
    Compositional Predicted fun l => Audited x l (account x l.source) where
  known := predicted_lower
  omitted := leaf rfl
  const _ _ _ := leaf rfl
  localVar _ _ := leaf rfl
  typeRef _ _ _ := leaf rfl
  ident _ _ _ := leaf rfl
  brk _ := jump rfl
  cont _ := jump rfl
  field _ _ _ _ h := field (rel_option h)
  index _ _ _ _ hb hp := index hb hp
  paren _ _ _ h := paren h
  annot _ _ _ _ h := annot h
  object _ _ _ h := object (rel_fields h)
  array _ _ _ h := array (rel_list h)
  callMember _ _ _ _ _ _ _ hr ha := callMember (rel_option hr) (rel_list ha)
  call loc type callee args hf hc ha := by
    have haccount : account x (Lowering.call loc type callee args).source = .listed
        (.call loc type callee.source (args.map Lowering.source)) (x.hit .call loc)
        (account x callee.source :: accountList x (args.map Lowering.source)) := by
      change account x (.call loc type callee.source (args.map Lowering.source)) = _
      generalize callee.source = e at hf
      cases e with
      | field => exact absurd rfl (hf _ _ _ _)
      | _ => rfl
    rw [haccount]
    exact call hc (rel_list ha)
  new _ _ _ _ _ h := new (rel_list h)
  binary _ _ _ _ _ hp hl hr := by
    rw [Lowering.source_binary]
    exact binary hl hr hp
  unary _ _ _ _ _ h := unary h
  function _ _ _ _ _ h := function (rel_option h)
  varDecl _ _ _ h := by
    rw [Lowering.source_varDecl]
    exact varDecl (rel_option h)
  block _ _ _ h := block (rel_list h)
  forIn _ _ _ _ hi hb := forIn hi (rel_option hb)
  ite _ _ _ _ _ hc ht hf := ite hc (rel_option ht) (rel_option hf)
  loop _ _ _ _ hp hc hb := loop hc hp (rel_option hb)
  switch _ _ _ _ _ hs hp hc hd := switch hs (rel_cases hc) hp (rel_option hd)
  ret _ _ h := by
    rw [Lowering.source_ret]
    exact ret (rel_option h)
  throw _ _ h := throw h
  cast _ _ _ _ h := cast h
  tryCatch _ _ _ _ hb hh := tryCatch (rel_option hb) (rel_handlers hh)
  enumParam _ _ _ _ _ h := enumParam h
  enumIndex _ _ h := enumIndex h

end Audited

end LuaBackend.Normalize
