import LuaBackend.Proofs.Normalize.Scoping.Operators

/-!
# Scopes of lowered statements

Blocks, branches, loops, switches and tries. The nodes that lowering makes
up for a loop and a switch are lowered like any other, so it is enough
that they fit into the scope of their temporaries.
-/

namespace LuaBackend

open Expr List

namespace Normalize.Scoping

open Lowering Obeys

variable {R : ScopeRule} {V B : Var → Prop} {a b n : Nat} {E : List Var} {s : TempSupply}
  {loc : Loc} {type : Ty}
variable {e : Expr} {stmt : Option Expr → Norm (List Expr)} {var : Var}
variable {body : Option Lowering}

theorem obeys_null : Obeys R V n E (.nullLit loc) := (scoped_leaf rfl).2 (naming_nil rfl)

/-- The value goes to a new temporary. -/
theorem valueScoped_valueOfStmts (he : e.declares = []) (hs : StmtScoped R e stmt) :
    ValueScoped R e (valueOfStmts e stmt) := by
  intro V B E s hE hf _
  unfold valueOfStmts
  split
  · refine (hs hE hf receives_none).bind fun stmts s₁ h => gives_pure ?_
    rw [he] at h
    exact ⟨h.before nofun, obeys_null, rfl⟩
  · refine gives_freshTemp_bind fun hlt => ?_
    have hdecl : Before R V E s.next (s.next + 1) [.varDecl e.loc (nextTemp s e.type) none] :=
      hE.before_nextTemp hlt nofun
    refine (hs (hE.afterTemp hlt) (Fits.after hf hdecl) (receives_nextTemp hE hlt)).bind ?_
    intro stmts s₁ h
    rw [he] at h
    have hstmts := h.before nofun
    refine gives_pure ⟨hdecl.append hstmts, ?_, rfl⟩
    rw [declared_cons, append_assoc]
    exact after (hE.obeys_nextTemp hlt) hstmts

theorem valueScoped_nothing (hs : StmtScoped R e stmt) :
    ValueScoped R e (do return ⟨← stmt none, .nullLit e.loc⟩) := by
  intro V B E s hE hf hd
  refine (hs hE hf receives_none).bind fun stmts s₁ h => gives_pure ?_
  exact ⟨h.before fun d hmem => ⟨(Fits.declares hf d hmem).1, hd d hmem⟩, obeys_null, rfl⟩

theorem declares_of_isBlockLike (h : e.isBlockLike = true) : e.declares = [] := by
  cases e with
  | block | ite | switch | tryCatch => rfl
  | _ => cases h

/-- A node that is lowered to statements. -/
theorem WellScoped.ofStmt (hs : StmtScoped R e stmt) : WellScoped R (.ofStmt e stmt) := by
  have hv : ValueScoped R e (Lowering.ofStmt e stmt).value := by
    unfold Lowering.ofStmt
    dsimp only
    split
    · rename_i hblock
      exact valueScoped_valueOfStmts (declares_of_isBlockLike hblock) hs
    · exact valueScoped_nothing hs
  exact ⟨hv, fun _ => hv, hs, hs.body⟩

theorem replaces_single (hab : a ≤ b) (he : Obeys R V b E e) (hd : e.declares = []) :
    Replaces R V E a b [] [e] :=
  ((before_nil.mono (Nat.le_refl a) hab).snoc he hd).replaces

/-! ## Jumps and declarations -/

theorem WellScoped.jump (he : e.declares = []) : WellScoped R (.jump e) := by
  refine .ofStmt fun V B E s assignee hE hf _ => gives_pure ?_
  rw [he]
  exact replaces_single .refl (Scoped.mono hf fun _ hn => hn.names) he

theorem WellScoped.ret {value : Option Lowering} (h : ∀ v ∈ value, WellScoped R v) :
    WellScoped R (.ret loc value) := by
  cases value with
  | none =>
    refine .ofStmt fun V B E s assignee _ _ _ => gives_pure ?_
    exact replaces_single .refl (scoped_ret.2 ⟨naming_nil rfl, nofun⟩) rfl
  | some l =>
    refine .ofStmt fun V B E s assignee hE hf _ => ?_
    have hf := scoped_ret.1 hf
    have ho := hf.1.operand mem_cons_self (hf.2 l.source rfl)
    refine ((h l rfl).taken hE ho).bind fun x s₁ hx => gives_pure ?_
    refine (hx.before.snoc (scoped_ret.2 ⟨naming_nil rfl, fun v hv => ?_⟩) rfl).replaces
    exact Option.some.inj hv ▸ hx.value

theorem WellScoped.throw {value : Lowering} (h : WellScoped R value) :
    WellScoped R (.throw loc value) := by
  refine .ofStmt fun V B E s assignee hE hf _ => ?_
  have hf := (scoped_one rfl).1 hf
  have ho := hf.1.operand mem_cons_self hf.2
  refine (h.taken hE ho).bind fun x s₁ hx => gives_pure ?_
  exact (hx.before.snoc ((scoped_one rfl).2 ⟨naming_nil rfl, hx.value⟩) rfl).replaces

/-- A variable of the program comes into scope. -/
theorem Around.cons {v : Var} (hE : Around E s) (hv : v.isTemp = false) : Around (v :: E) s := by
  refine hE.under (D := [v]) .refl fun d hd ht => ?_
  rw [mem_singleton.1 hd, hv] at ht
  cases ht

/-- The local is declared first, and the initial value must not name what it
hides. -/
theorem gives_blockInit {init : Lowering} (h : WellScoped R init) (hE : Around E s)
    (hf : Fits R V B s.next E (.varDecl loc var (some init.source)))
    (hblock : init.source.bare.isBlockLike = true) :
    Gives (do
      let stmts ← init.stmt (some (.local loc var))
      return .varDecl loc var none :: stmts) s fun stmts s' =>
        Replaces R V E s.next s'.next [var] stmts := by
  obtain ⟨⟨hdeclares, hsource⟩, hinit⟩ := scoped_varDecl.1 hf
  have hfits := hinit init.source rfl
  obtain ⟨huser, hB⟩ := hsource.binds var (.head _)
  have htidy : Names (fun v => R.apart var v ∧ R.apart v var) init.source :=
    hsource.tidy.2 hblock
  -- what the initial value declares does not matter for the local
  let B' : Var → Prop := fun d => R.apart d var
  have hfits' : Fits R V B' s.next (var :: E) init.source := by
    have hweak : Fits R V B s.next (var :: E) init.source := by
      refine Scoped.weaken (D := [var]) (fun d hd => ?_) hfits
      rw [mem_singleton.1 hd]
      exact htidy.mono fun _ hv => hv.1
    have hbinds : Binds (fun d => R.apart d var) init.source :=
      (htidy.mono fun _ hv => hv.2).binds
    refine (Scoped.and hweak hbinds).mono fun m hm => ?_
    exact ⟨hm.1.names, fun d hd => ⟨(hm.1.binds d hd).1, hm.2 d hd⟩, hm.1.tidy⟩
  have hnames : Naming (Known V s.next) (.local loc var) := hsource.names
  have hreceives : Receives R V B' s.next (var :: E) (some (.local loc var)) := by
    intro p hp
    rw [← Option.some.inj hp]
    refine ⟨scoped_local.2 ⟨R.reads_local huser, hnames⟩, fun v hv d _ hd => ?_, forall_mem_nil _⟩
    rw [mem_singleton.1 hv]
    exact hd
  refine (h.stmt (hE.cons huser) hfits' hreceives).bind fun stmts s₁ hs => gives_pure ?_
  have hdecl : Obeys R V s₁.next E (.varDecl loc var none) := by
    refine scoped_varDecl.2 ⟨⟨hdeclares, fun v hv => ?_⟩, fun _ hi => absurd hi (Option.not_mem_none _)⟩
    exact (hsource.names v hv).mono hs.le
  refine ⟨hs.le, (scopedSeq_cons _ _).2 ⟨hdecl, hs.run⟩, ?_⟩
  have hscope := hs.scope
  rw [declares_of_bare_isBlockLike hblock] at hscope
  exact hscope.append (Inserts.refl [var])

theorem WellScoped.varDecl {init : Option Lowering} (h : ∀ i ∈ init, WellScoped R i) :
    WellScoped R (.varDecl loc var init) := by
  cases init with
  | none =>
    refine .ofStmt fun V B E s assignee hE hf _ => gives_pure ?_
    refine ⟨.refl, (scopedSeq_cons _ _).2 ⟨?_, scopedSeq_nil⟩, Inserts.refl [var]⟩
    exact Scoped.mono hf fun _ hn => hn.names
  | some l =>
    refine .ofStmt fun V B E s assignee hE hf hr => ?_
    split
    · rename_i hblock
      exact gives_blockInit (h l rfl) hE hf hblock
    · obtain ⟨⟨hdeclares, hsource⟩, hinit⟩ := scoped_varDecl.1 hf
      have ho := hsource.operand mem_cons_self (hinit l.source rfl)
      have hvar : Known V s.next var := hsource.names var (.head _)
      refine ((h l rfl).taken hE ho).bind fun x s₁ hx => gives_pure ?_
      have hdecl : Obeys R V s₁.next (declared x.stmts ++ E) (.varDecl loc var (some x.value)) := by
        refine scoped_varDecl.2 ⟨⟨?_, fun v hv => (hsource.names v hv).mono hx.before.le⟩, ?_⟩
        · exact R.declares_append hdeclares fun d hd => New.apart (hx.before.new d hd) hvar
        · exact fun _ hi => Option.some.inj hi ▸ hx.value
      refine ⟨hx.before.le, scopedSeq_append.2 ⟨hx.before.run, ?_⟩, ?_⟩
      · exact (scopedSeq_cons _ _).2 ⟨hdecl, scopedSeq_nil⟩
      · rw [declared_append]
        exact .keep var (inserts_nil_left.2 hx.before.new)

theorem Source.mono (h : Source R V B a e) (hab : a ≤ b) : Source R V B b e :=
  ⟨naming_mono h.names hab, h.binds, h.tidy⟩

/-- Statements in order, the last of which stores its value. -/
theorem gives_sequence : ∀ {ls : List Lowering}, (∀ l ∈ ls, WellScoped R l) →
    ∀ {E : List Var} {s : TempSupply} {assignee : Option Expr}, Around E s →
    ScopedSeq R (Source R V B s.next) E (ls.map source) →
    Receives R V B s.next E assignee →
    Gives (sequence assignee ls) s fun stmts s' =>
      s.next ≤ s'.next ∧ ScopedSeq R (Naming (Known V s'.next)) E stmts
  | [], _, _, _, _, _, _, _ => gives_pure ⟨.refl, scopedSeq_nil⟩
  | [l], hls, _, _, _, hE, hf, hr =>
    ((hls l mem_cons_self).stmt hE ((scopedSeq_cons _ _).1 hf).1 hr).mono
      fun _ _ hs => ⟨hs.le, hs.run⟩
  | first :: second :: rest, hls, E, s, assignee, hE, hf, hr => by
    rw [forall_mem_cons] at hls
    obtain ⟨hfirst, hrest⟩ := (scopedSeq_cons _ _).1 hf
    refine (hls.1.stmt hE hfirst receives_none).bind fun stmts s₁ hs => ?_
    -- besides what is new, the statements bring into scope what the node does
    have huser := Fits.declares hfirst
    have hE₁ : Around (declared stmts ++ E) s₁ := by
      refine hE.under hs.le (hs.scope.forall (fun d hd ht => ?_) fun d hd => New.below hd)
      rw [(huser d hd).1] at ht
      cases ht
    have hrest₁ : ScopedSeq R (Source R V B s₁.next) (declared stmts ++ E)
        ((second :: rest).map source) := by
      refine (hrest.inserts hs.scope fun d hd e he => ?_).mono fun _ hn => Source.mono hn hs.le
      exact names_apart ((hrest.throughout e he).mono fun _ hn => hn.names) hd
    have hr₁ : Receives R V B s₁.next (declared stmts ++ E) assignee := by
      intro p hp
      obtain ⟨hobeys, hapart⟩ := hr p hp
      refine ⟨mono (Scoped.weaken ?_ hobeys) hs.le, hapart⟩
      refine hs.scope.forall (fun d hd => ?_) fun d hd => names_apart (known hobeys) hd
      exact hapart.mono fun v hv => hv d (huser d hd).1 (huser d hd).2
    refine (gives_sequence hls.2 hE₁ hrest₁ hr₁).bind fun more s₂ hm => gives_pure ?_
    refine ⟨Nat.le_trans hs.le hm.1, scopedSeq_append.2 ⟨?_, hm.2⟩⟩
    exact hs.run.mono fun _ hn => naming_mono hn hm.1

/-- What a block declares is not in scope after it. -/
theorem WellScoped.block {ls : List Lowering} (h : ∀ l ∈ ls, WellScoped R l) :
    WellScoped R (.block loc type ls) := by
  have hs : StmtScoped R (.block loc type (ls.map source)) fun assignee => do
      let stmts ← sequence assignee ls
      return if stmts.isEmpty then [] else [.statements loc stmts] := by
    intro V B E s assignee hE hf hr
    refine (gives_sequence h hE (scoped_block.1 hf).2 hr).bind fun stmts s₁ hstmts => ?_
    refine gives_pure ?_
    split
    · exact (before_nil.mono .refl hstmts.1).replaces
    · exact replaces_single hstmts.1 (scoped_block.2 ⟨naming_nil rfl, hstmts.2⟩) rfl
  have hv : ValueScoped R (.block loc type (ls.map source)) (Lowering.block loc type ls).value := by
    unfold Lowering.block
    dsimp only
    split
    · exact fun V B E s _ _ _ => gives_pure ⟨before_nil, obeys_null, rfl⟩
    · exact valueScoped_valueOfStmts rfl hs
  exact ⟨hv, fun _ => hv, hs, fun V B E s assignee hE hf hr =>
    gives_sequence h hE (scoped_block.1 hf).2 hr⟩

/-! ## Branches, loops over iterators, tries -/

theorem Fits.part {part : Option Lowering} (h : ∀ e ∈ part.map source, Fits R V B n E e) :
    ∀ l ∈ part, Fits R V B n E l.source :=
  fun _ hl => h _ (Option.mem_map_of_mem _ hl)

theorem WellScoped.ite {cond : Lowering} {onTrue onFalse : Option Lowering}
    (hc : WellScoped R cond) (ht : ∀ l ∈ onTrue, WellScoped R l)
    (hf : ∀ l ∈ onFalse, WellScoped R l) : WellScoped R (.ite loc type cond onTrue onFalse) := by
  refine .ofStmt fun V B E s assignee hE hfits hr => ?_
  obtain ⟨hsource, hfc, hft, hff⟩ := scoped_ite.1 hfits
  have ho := hsource.operand mem_cons_self hfc
  refine (hc.taken hE ho).bind fun c s₁ hcond => ?_
  have hE₁ := hE.after hcond.before
  have hr₁ := hr.after hcond.before
  have hft₁ : ∀ l ∈ onTrue, Fits R V B s₁.next (declared c.stmts ++ E) l.source :=
    fun l hl => Fits.after (Fits.part hft l hl) hcond.before
  refine (gives_scope ht hE₁ hft₁ hr₁).bind fun t s₂ hthen => ?_
  cases onFalse with
  | none =>
    refine gives_pure ((hcond.before.mono .refl hthen.1).snoc ?_ rfl).replaces
    exact scoped_ite.2 ⟨naming_nil rfl, mono hcond.value hthen.1,
      fun _ h => Option.some.inj h ▸ hthen.2, nofun⟩
  | some f =>
    have hff₂ : ∀ l ∈ some f, Fits R V B s₂.next (declared c.stmts ++ E) l.source :=
      fun l hl => Fits.mono (Fits.after (Fits.part hff l hl) hcond.before) hthen.1
    refine (gives_scope hf (hE₁.mono hthen.1) hff₂ (hr₁.mono hthen.1)).bind fun f' s₃ helse => ?_
    have hle := Nat.le_trans hthen.1 helse.1
    refine gives_pure ((hcond.before.mono .refl hle).snoc ?_ rfl).replaces
    exact scoped_ite.2 ⟨naming_nil rfl, mono hcond.value hle,
      fun _ h => Option.some.inj h ▸ mono hthen.2 helse.1,
      fun _ h => Option.some.inj h ▸ helse.2⟩

/-- The local of the loop is in scope of its body. -/
theorem WellScoped.forIn {iterator : Lowering} (hi : WellScoped R iterator)
    (hb : ∀ l ∈ body, WellScoped R l) :
    WellScoped R (.forIn loc var iterator body) := by
  refine .ofStmt fun V B E s assignee hE hf _ => ?_
  obtain ⟨⟨hbinds, hsource⟩, hfi, hfb⟩ := scoped_forIn.1 hf
  have ho := hsource.operand mem_cons_self hfi
  have hvar : Known V s.next var := hsource.names var (.head _)
  obtain ⟨huser, -⟩ := hsource.binds var (.head _)
  refine (hi.taken hE ho).bind fun x s₁ hx => ?_
  have hfb₁ : ∀ l ∈ body, Fits R V B s₁.next (var :: (declared x.stmts ++ E)) l.source := by
    intro l hl
    have hl := Fits.part hfb l hl
    refine Fits.mono (Scoped.inserts (l := [var]) (A := []) (inserts_nil_left.2 hx.before.new)
      (fun d hd => names_apart (Fits.known hl) hd) hl) hx.before.le
  refine (gives_scope hb ((hE.after hx.before).cons huser) hfb₁ receives_none).bind ?_
  intro stmts s₂ hstmts
  refine gives_pure ((hx.before.mono .refl hstmts.1).snoc ?_ rfl).replaces
  refine scoped_forIn.2 ⟨⟨?_, fun v hv => ?_⟩, mono hx.value hstmts.1,
    fun _ h => Option.some.inj h ▸ hstmts.2⟩
  · exact R.binds_append hbinds fun d hd => New.apart (hx.before.new d hd) hvar
  · exact (hsource.names v hv).mono (Nat.le_trans hx.before.le hstmts.1)

/-- Each handler has its own variable in scope. -/
theorem gives_handlers {assignee : Option Expr} : ∀ {hs : List (Handler Lowering)},
    (∀ h ∈ hs, ∀ l ∈ h.body, WellScoped R l) → ∀ {s : TempSupply}, Around E s →
    (∀ h ∈ hs, h.var.isTemp = false ∧ B h.var) →
    (∀ h ∈ hs, ∀ l ∈ h.body, Fits R V B s.next (h.var :: E) l.source) →
    Receives R V B s.next E assignee →
    Gives (handlers assignee hs) s fun hs' s' => s.next ≤ s'.next ∧
      hs'.map Handler.var = hs.map Handler.var ∧
      ∀ h ∈ hs', ∀ b ∈ h.body, Obeys R V s'.next (h.var :: E) b
  | [], _, _, _, _, _, _ => gives_pure ⟨.refl, rfl, nofun⟩
  | ⟨var, body⟩ :: rest, hw, s, hE, hu, hf, hr => by
    rw [forall_mem_cons] at hw hu hf
    refine (gives_scope hw.1 (hE.cons hu.1.1) hf.1 (hr.cons hu.1.1 hu.1.2)).bind fun b s₁ hb => ?_
    refine (gives_handlers hw.2 (hE.mono hb.1) hu.2
      (fun h hh l hl => Fits.mono (hf.2 h hh l hl) hb.1) (hr.mono hb.1)).bind fun hs' s₂ h => ?_
    refine gives_pure ⟨Nat.le_trans hb.1 h.1, ?_, ?_⟩
    · rw [map_cons, map_cons, h.2.1]
    · refine forall_mem_cons.2 ⟨fun b' hb' => ?_, h.2.2⟩
      exact Option.some.inj hb' ▸ mono hb.2 h.1

theorem WellScoped.tryCatch {handlers : List (Handler Lowering)} (hb : ∀ l ∈ body, WellScoped R l)
    (hh : ∀ h ∈ handlers, ∀ l ∈ h.body, WellScoped R l) :
    WellScoped R (.tryCatch loc type body handlers) := by
  refine .ofStmt fun V B E s assignee hE hf hr => ?_
  obtain ⟨⟨hbinds, hsource⟩, hfb, hfh⟩ := scoped_tryCatch.1 hf
  have hvars : (handlers.map fun h => (⟨h.var, h.body.map source⟩ : Handler Expr)).map
      Handler.var = handlers.map Handler.var := by
    rw [map_map]
    rfl
  have huser : ∀ h ∈ handlers, h.var.isTemp = false ∧ B h.var := by
    intro h hmem
    have hmem' : h.var ∈ handlers.map Handler.var := mem_map_of_mem hmem
    rw [← hvars] at hmem'
    exact hsource.binds h.var hmem'
  refine (gives_scope hb hE (Fits.part hfb) hr).bind fun stmts s₁ hstmts => ?_
  have hfh₁ : ∀ h ∈ handlers, ∀ l ∈ h.body, Fits R V B s₁.next (h.var :: E) l.source := by
    intro h hmem l hl
    refine Fits.mono (hfh ⟨h.var, h.body.map source⟩ (mem_map_of_mem hmem)
      l.source (Option.mem_map_of_mem _ hl)) hstmts.1
  refine (gives_handlers hh (hE.mono hstmts.1) huser hfh₁ (hr.mono hstmts.1)).bind ?_
  intro hs' s₂ h
  refine gives_pure (replaces_single (Nat.le_trans hstmts.1 h.1) ?_ rfl)
  refine scoped_tryCatch.2 ⟨⟨fun k hk => ?_, fun v hv => ?_⟩,
    fun _ hb => Option.some.inj hb ▸ mono hstmts.2 h.1, h.2.2⟩
  · obtain ⟨k', hk', heq⟩ := mem_map.1 (h.2.1 ▸ mem_map_of_mem (f := Handler.var) hk)
    rw [← heq]
    exact hbinds ⟨k'.var, k'.body.map source⟩ (mem_map_of_mem hk')
  · rw [Expr.vars, h.2.1, ← hvars] at hv
    exact (hsource.names v hv).mono (Nat.le_trans hstmts.1 h.1)

end Normalize.Scoping

end LuaBackend
