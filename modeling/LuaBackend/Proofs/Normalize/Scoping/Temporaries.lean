import LuaBackend.Proofs.Normalize.Scoping.Loops

/-!
# Temporaries in scope

A temporary that is read stands in the scope of exactly one declaration of
its number, and none is declared again in its own scope. A tree without
temporaries keeps this rule, and so does what it is normalized to.
-/

namespace LuaBackend

open Expr List

namespace Normalize.Scoping

variable {assignee : Option Expr} {stmts : List Expr}

/-- A temporary is read in the scope of one declaration of its number, and
declared in the scope of none. Loops and handlers bind variables of the
program only. -/
def temporaries : ScopeRule where
  reads env v := v.isTemp = true → env.countP (fun d => d.id = v.id) = 1
  declares env v := v.isTemp = true → ∀ d ∈ env, d.id ≠ v.id
  binds _ v := v.isTemp = false
  apart d v := v.isTemp = true → d.id ≠ v.id
  reads_insert {l env d v} hd h ht := by
    have hne : ¬ d.id = v.id := hd ht
    rw [countP_append, countP_cons_of_neg (by simpa using hne), ← countP_append]
    exact h ht
  declares_insert {l env d v} hd h ht := by
    have henv := h ht
    rw [forall_mem_append] at henv ⊢
    exact ⟨henv.1, forall_mem_cons.2 ⟨hd ht, henv.2⟩⟩
  binds_insert _ h := h
  apart_temp _ hne _ := hne
  reads_local hv ht := by
    rw [hv] at ht
    exact nomatch ht
  reads_temp _ _ := by simp
  declares_temp _ _ := fun _ h => nomatch h

variable {V B : Var → Prop} {n : Nat} {E : List Var} {s s' : TempSupply} {e : Expr}

/-- A declaration of the program does not matter for temporaries. -/
theorem temporaries_ignores {d : Var} (hd : d.isTemp = false) : temporaries.Ignores d := by
  intro v hv hid
  rw [Var.isTemp, ← hid] at hv
  rw [Var.isTemp] at hd
  exact nomatch hd.symm.trans hv

theorem temporaries_admits (h : ∀ v ∈ e.vars, v.isTemp = false) (env : List Var) :
    temporaries.Admits env e := by
  have hnot {v : Var} (hv : v.isTemp = false) {p : Prop} (ht : v.isTemp = true) : p := by
    rw [hv] at ht
    exact nomatch ht
  cases e with
  | «local» _ v => exact hnot (h v (.head _))
  | varDecl _ v _ => exact hnot (h v (.head _))
  | forIn _ v _ _ => exact h v (.head _)
  | tryCatch => exact fun k hk => h k.var (mem_map_of_mem hk)
  | function _ _ params _ _ =>
    have hall : ∀ {vs env : List Var}, (∀ v ∈ vs, v.isTemp = false) →
        temporaries.DeclaresAll env vs := by
      intro vs
      induction vs with
      | nil => exact fun _ => trivial
      | cons v rest ih =>
        intro env hvs
        rw [forall_mem_cons] at hvs
        exact ⟨hnot hvs.1, ih hvs.2⟩
    exact hall h
  | _ => trivial

/-- A tree without temporaries keeps the rule. -/
theorem scoped_of_tempFree {Q : Expr → Prop} (hQ : ∀ m : Expr, m.TempFree → Q m) :
    ∀ {env : List Var}, e.TempFree → Scoped temporaries Q env e := by
  induction e using induction_on_children with
  | step e ih =>
  intro env h
  refine ⟨temporaries_admits h.vars env, hQ e h, fun p hp => ?_⟩
  have hc := mem_children_of_mem_parts hp
  exact ih p.2 hc (h.child hc)

theorem tempFree_of_scoped
    (h : Scoped temporaries (Naming fun v => v.isTemp = false) E e) : e.TempFree :=
  tempFree_iff_names.2 h.throughout

theorem TempFree.source (h : e.TempFree) :
    Source temporaries (fun _ => True) (fun _ => True) n e := by
  have hnames {e : Expr} (h : e.TempFree) : Names (fun v => v.isTemp = false) e :=
    tempFree_iff_names.1 h
  refine ⟨fun v hv => ⟨fun ht => ?_, fun _ => trivial⟩, fun d hd => ?_, fun c hc d hd => ?_, ?_⟩
  · rw [h.vars v hv] at ht
    exact nomatch ht
  · exact ⟨h.vars d (binders_subset hd), trivial⟩
  · have hchild : c ∈ e.children := by
      cases e with
      | forIn => exact mem_singleton.1 hc ▸ mem_cons_self
      | ite => exact mem_singleton.1 hc ▸ mem_cons_self
      | loop => exact mem_singleton.1 hc ▸ mem_cons_self
      | switch _ _ subject cases _ =>
        rcases mem_cons.1 hc with rfl | hc
        · exact mem_cons_self
        · obtain ⟨k, hk, hv⟩ := mem_flatMap.1 hc
          refine mem_cons_of_mem _ (mem_append_left _ (mem_flatMap.2 ⟨k, hk, ?_⟩))
          exact mem_append_left _ hv
      | paren | annot | function | block | tryCatch => exact nomatch hc
      | _ => exact hc
    exact temporaries_ignores ((hnames (h.child hchild)).binds.declares d hd)
  -- What the program declares on one side does not matter for the other side.
  · split
    · intro _
      have hl := hnames (h.child mem_cons_self)
      have hr := hnames (h.child (.tail _ mem_cons_self))
      exact hl.mono fun v _ => hr.binds.mono fun _ hd v' hv' => temporaries_ignores (hd v' hv') v
    · rename_i x init
      intro _
      have hx := h.vars x (.head _)
      have hi := hnames (h.child (mem_cons_self (a := init)))
      exact hi.mono fun v hv => ⟨temporaries_ignores hx v, temporaries_ignores hv x⟩
    · trivial

/-- A tree without temporaries can be lowered anywhere. -/
theorem fits_of_tempFree (h : e.TempFree) :
    Fits temporaries (fun _ => True) (fun _ => True) n E e :=
  scoped_of_tempFree (fun _ => TempFree.source) h

theorem receives_of_tempFree (h : ∀ p ∈ assignee, p.TempFree) :
    Receives temporaries (fun _ => True) (fun _ => True) n E assignee := by
  intro p hp
  refine ⟨Scoped.mono (fits_of_tempFree (h p hp)) fun _ hn => hn.names, ?_⟩
  exact (tempFree_iff_names.1 (h p hp)).mono fun v _ d hd _ => temporaries_ignores hd v

/-- The statements of a run have their temporaries in scope wherever all
declarations around are older than the run. -/
def Follows (s : TempSupply) (stmts : List Expr) (s' : TempSupply) : Prop :=
  ∀ E, Around E s → ScopedSeq temporaries (fun _ => True) E stmts ∧ Around (declared stmts ++ E) s'

theorem follows_nil (s : TempSupply) : Follows s [] s := fun _ h => ⟨scopedSeq_nil, h⟩

theorem Follows.append {s'' : TempSupply} {more : List Expr} (h : Follows s stmts s')
    (h' : Follows s' more s'') : Follows s (stmts ++ more) s'' := by
  intro E hE
  obtain ⟨hrun, hE'⟩ := h E hE
  obtain ⟨hrun', hE''⟩ := h' _ hE'
  refine ⟨scopedSeq_append.2 ⟨hrun, hrun'⟩, ?_⟩
  rwa [declared_append, append_assoc]

/-- What a run declares is older than the next run. -/
theorem Around.declared (hE : Around E s) (hle : s.next ≤ s'.next)
    (hrun : ScopedSeq temporaries (Naming (Known V s'.next)) E stmts) :
    Around (declared stmts ++ E) s' := by
  refine hE.under hle fun d hd ht => ?_
  have hknown : ∀ d ∈ Expr.declared stmts, Known V s'.next d := by
    have hnames := hrun.throughout
    clear hrun hd
    induction stmts with
    | nil => exact fun _ h => nomatch h
    | cons e es ih =>
      rw [forall_mem_cons] at hnames
      rw [declared_cons, forall_mem_append]
      exact ⟨ih hnames.2, (Names.binds hnames.1).declares⟩
  exact (hknown d hd).1 ht

def sequenceOf : Expr → List Expr
  | .block _ _ stmts => stmts
  | e => [e]

theorem scoped_of_sequence (h : ScopedSeq temporaries (fun _ => True) E (sequenceOf e)) :
    Scoped temporaries (fun _ => True) E e := by
  unfold sequenceOf at h
  split at h
  · exact scoped_block.2 ⟨trivial, h⟩
  · exact ((scopedSeq_cons _ _).1 h).1

theorem Scoped.sequence {Q : Expr → Prop} (h : Scoped temporaries Q E e) :
    ScopedSeq temporaries Q E (sequenceOf e) := by
  unfold sequenceOf
  split
  · exact (scoped_block.1 h).2
  · exact (scopedSeq_cons _ _).2 ⟨h, scopedSeq_nil⟩

/-- What keeps to the rule in every older scope. -/
theorem gives_follows {α : Type} {act : Norm α} {f : α → List Expr} (hs : Reserved s)
    (h : ∀ E, Around E s → Gives act s fun a s' =>
      s.next ≤ s'.next ∧ ScopedSeq temporaries (Naming (Known (fun _ => True) s'.next)) E (f a)) :
    Gives act s fun a s' => Follows s (f a) s' := by
  have : Nonempty { E // Around E s } := ⟨[], around_nil hs⟩
  refine (Gives.forall fun E : { E // Around E s } => h E.1 E.2).mono fun a s' ha E hE => ?_
  obtain ⟨hle, hrun⟩ := ha ⟨E, hE⟩
  exact ⟨hrun.mono fun _ _ => trivial, Around.declared hE hle hrun⟩

/-- A tree without temporaries, normalized as a statement. -/
theorem gives_normalize_follows (he : e.TempFree) (ha : ∀ p ∈ assignee, p.TempFree)
    (hs : Reserved s) :
    Gives (normalize e assignee) s fun t s' => Follows s (sequenceOf t) s' := by
  refine gives_follows hs fun E hE => ?_
  have hbody := (wellScoped_lower temporaries e).body hE
    (fits_of_tempFree ((source_lower e).symm ▸ he)) (receives_of_tempFree ha)
  exact hbody.bind fun stmts s' h => gives_pure h

theorem gives_normalizeValue_leaves (he : e.TempFree) (hE : Around E s) :
    Gives (normalizeValue e) s fun h s' =>
      Leaves temporaries (fun _ => True) E s.next s'.next h := by
  refine (wellScoped_lower temporaries e).value hE
    (fits_of_tempFree ((source_lower e).symm ▸ he)) fun d hd => ?_
  rw [source_lower] at hd
  exact temporaries_ignores ((tempFree_iff_names.1 he).binds.declares d hd)

/-- The statements of a value, followed by the value. -/
theorem gives_normalizeValue_follows (he : e.TempFree) (hs : Reserved s) :
    Gives (normalizeValue e) s fun h s' => Follows s (h.stmts ++ [h.value]) s' := by
  refine gives_follows hs fun E hE => ?_
  refine (gives_normalizeValue_leaves he hE).mono fun h s' hh => ⟨hh.before.le, ?_⟩
  exact (hh.before.snoc hh.value hh.plain).run

/-- A function literal needs no statements. -/
theorem gives_normalizeFunction_follows (he : e.TempFree) (hh : e.hoists = false)
    (hs : Reserved s) :
    Gives (normalizeFunction e) s fun t s' => Follows s (sequenceOf t) s' := by
  refine gives_follows hs fun E hE => ?_
  refine ((gives_normalizeValue_leaves he hE).and ((predicted_lower e).value s)).bind ?_
  intro h s' ⟨hleaves, hquiet⟩
  rw [source_lower] at hquiet
  have hvalue := hleaves.value
  rw [(hquiet hh).stmts] at hvalue
  exact gives_pure ⟨hleaves.before.le, Scoped.sequence hvalue⟩

end Normalize.Scoping

end LuaBackend
