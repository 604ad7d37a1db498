import LuaBackend.Proofs.Tree.Rebuild

/-!
# Lexical scope

A declaration is visible to the later statements of its own block and to
everything in them; parameters are visible in the whole function, and the
variable of a loop or handler in its body. `parts` gives the nodes below a
node together with what the node brings into scope there, and `Scoped R Q
env e` says that every variable of `e` stands as the rule `R` asks, given
the declarations around it, and every node of `e` has `Q`.

A rule says for which pairs of variables a declaration of one does not
matter for the other (`apart`). Further declarations that do not matter
for what a tree names leave it as the rule asks (`Scoped.inserts`); moving
code into other scopes rests on this.
-/

open List

namespace LuaBackend

namespace Expr

variable {c : Expr}

/-- Every node of the tree has the property. -/
inductive Throughout (Q : Expr → Prop) : Expr → Prop
  | intro {e : Expr} (node : Q e) (below : ∀ c ∈ e.children, Throughout Q c) : Throughout Q e

section Throughout

variable {Q Q' : Expr → Prop} {e : Expr}

/-- A property of all nodes, one level down. -/
theorem throughout_iff : Throughout Q e ↔ Q e ∧ ∀ c ∈ e.children, Throughout Q c :=
  ⟨fun ⟨node, below⟩ => ⟨node, below⟩, fun ⟨node, below⟩ => ⟨node, below⟩⟩

section

variable (h : Throughout Q e)
include h

theorem Throughout.node : Q e := (throughout_iff.1 h).1

theorem Throughout.child (hc : c ∈ e.children) : Throughout Q c := (throughout_iff.1 h).2 c hc

theorem Throughout.mono (hQ : ∀ n, Q n → Q' n) : Throughout Q' e := by
  induction h with
  | intro node _ ih => exact ⟨hQ _ node, ih⟩

/-- What holds throughout a tree holds throughout each of its nodes. -/
theorem Throughout.throughout : Throughout (Throughout Q) e := by
  induction e using induction_on_children with
  | step e ih => exact throughout_iff.2 ⟨h, fun c hc => ih c hc (h.child hc)⟩

theorem Throughout.and (h' : Throughout Q' e) : Throughout (fun n => Q n ∧ Q' n) e := by
  induction h with
  | intro node _ ih => exact ⟨⟨node, h'.node⟩, fun c hc => ih c hc (h'.child hc)⟩

end

theorem throughout_forall {ι : Type} {Q : ι → Expr → Prop} (h : ∀ i, Throughout (Q i) e) :
    Throughout (fun n => ∀ i, Q i n) e := by
  induction e using induction_on_children with
  | step e ih => exact ⟨fun i => (h i).node, fun c hc => ih c hc fun i => (h i).child hc⟩

theorem throughout_forall_imp {p : Prop} (h : p → Throughout Q e) :
    Throughout (fun n => p → Q n) e := by
  induction e using induction_on_children with
  | step e ih => exact ⟨fun hp => (h hp).node, fun c hc => ih c hc fun hp => (h hp).child hc⟩

theorem Throughout.bare (h : Throughout Q e) : Throughout Q e.bare := by
  fun_induction Expr.bare e with
  | case1 loc type inner ih => exact ih (h.child (.head _))
  | case2 loc type name inner ih => exact ih (h.child (.head _))
  | case3 => exact h

/-- Whether a property holds throughout a tree can be searched for. -/
theorem throughout_iff_search [DecidablePred Q] :
    Throughout Q e ↔ e.search (fun n => !decide (Q n)) (fun _ => false) = false := by
  induction e using induction_on_children with
  | step e ih =>
  rw [throughout_iff, search_eq_false, Bool.not_eq_false', decide_eq_true_iff]
  exact and_congr_right fun _ => forall₂_congr ih

instance decidableThroughout [DecidablePred Q] : Decidable (Throughout Q e) :=
  decidable_of_iff _ throughout_iff_search.symm

end Throughout

def binders : Expr → List Var
  | .local .. => []
  | e => e.vars

def Names (P : Var → Prop) : Expr → Prop := Throughout fun n => ∀ v ∈ n.vars, P v

def Binds (P : Var → Prop) : Expr → Prop := Throughout fun n => ∀ v ∈ n.binders, P v

section Names

variable {P P' : Var → Prop} {e : Expr}

instance decidableNames [DecidablePred P] : Decidable (Names P e) :=
  inferInstanceAs (Decidable (Throughout _ e))

instance decidableBinds [DecidablePred P] : Decidable (Binds P e) :=
  inferInstanceAs (Decidable (Throughout _ e))

/-- A tree names what its node names and what the nodes below it name. -/
theorem names_iff : Names P e ↔ (∀ v ∈ e.vars, P v) ∧ ∀ c ∈ e.children, Names P c := throughout_iff

theorem Names.mono (h : Names P e) (hP : ∀ v, P v → P' v) : Names P' e :=
  Throughout.mono h fun _ hn v hv => hP v (hn v hv)

theorem binders_subset {v : Var} (h : v ∈ e.binders) : v ∈ e.vars := by
  cases e with
  | «local» => cases h
  | _ => exact h

theorem Names.binds (h : Names P e) : Binds P e :=
  Throughout.mono h fun _ hn v hv => hn v (binders_subset hv)

/-- Trees from front ends name no temporary. -/
theorem tempFree_iff_names : e.TempFree ↔ Names (fun v => v.isTemp = false) e := by
  induction e using induction_on_children with
  | step e ih =>
  rw [tempFree_iff, names_iff]
  exact and_congr_right fun _ => forall₂_congr ih

end Names

/-- The variable that a statement brings into the scope of the statements
after it. -/
def declares (e : Expr) : List Var :=
  match e.bare with
  | varDecl _ var _ => [var]
  | _ => []

/-- What a statement brings into scope it declares. -/
theorem Binds.declares {P : Var → Prop} {e : Expr} (h : Binds P e) : ∀ d ∈ e.declares, P d := by
  have hbare := (Throughout.bare h).node
  unfold Expr.declares
  split
  · rename_i var _ heq
    rw [heq] at hbare
    exact hbare
  · exact fun _ hd => nomatch hd

def declared : List Expr → List Var
  | [] => []
  | e :: rest => declared rest ++ e.declares

/-- The statements of a sequence, each with what the ones before it bring
into scope. -/
def partsSeq : List Expr → List (List Var × Expr)
  | [] => []
  | e :: rest => ([], e) :: (partsSeq rest).map fun p => (p.1 ++ e.declares, p.2)

/-- The nodes directly below a node, each with what the node brings into
scope there, innermost first. -/
def parts : Expr → List (List Var × Expr)
  | function _ _ params _ body =>
    (params.filterMap Param.default ++ body.toList).map ((params.map Param.var).reverse, ·)
  | block _ _ exprs => partsSeq exprs
  | forIn _ var iterator body => ([], iterator) :: body.toList.map ([var], ·)
  | tryCatch _ _ body handlers =>
    body.toList.map ([], ·) ++ handlers.flatMap fun h => h.body.toList.map ([h.var], ·)
  | e => e.children.map ([], ·)

/-- The parts of a sequence are its statements. -/
theorem mem_of_mem_partsSeq {p : List Var × Expr} : ∀ {es : List Expr}, p ∈ partsSeq es → p.2 ∈ es
  | _ :: rest, h => by
    rcases mem_cons.1 h with rfl | h
    · exact mem_cons_self
    · obtain ⟨q, hq, rfl⟩ := mem_map.1 h
      exact mem_cons_of_mem _ (mem_of_mem_partsSeq (p := q) hq)

/-- The parts of a node are the nodes directly below it. -/
theorem mem_children_of_mem_parts {e : Expr} {p : List Var × Expr} (h : p ∈ e.parts) :
    p.2 ∈ e.children := by
  cases e with
  | block => exact mem_of_mem_partsSeq h
  | function =>
    obtain ⟨c, hc, rfl⟩ := mem_map.1 h
    exact hc
  | forIn =>
    rcases mem_cons.1 h with rfl | h
    · exact mem_cons_self
    · obtain ⟨c, hc, rfl⟩ := mem_map.1 h
      exact mem_cons_of_mem _ hc
  | tryCatch =>
    rcases mem_append.1 h with h | h
    · obtain ⟨c, hc, rfl⟩ := mem_map.1 h
      exact mem_append_left _ hc
    · obtain ⟨k, hk, hp⟩ := mem_flatMap.1 h
      obtain ⟨c, hc, rfl⟩ := mem_map.1 hp
      exact mem_append_right _ (mem_filterMap.2 ⟨k, hk, Option.mem_toList.1 hc⟩)
  | _ =>
    obtain ⟨c, hc, rfl⟩ := mem_map.1 h
    exact hc

theorem exists_mem_partsSeq : ∀ {es : List Expr}, c ∈ es → ∃ l, (l, c) ∈ partsSeq es
  | e :: rest, h => by
    rcases mem_cons.1 h with rfl | h
    · exact ⟨[], mem_cons_self⟩
    · obtain ⟨l, hl⟩ := exists_mem_partsSeq h
      exact ⟨l ++ e.declares, mem_cons_of_mem _ (mem_map_of_mem hl)⟩

/-- The nodes directly below a node are its parts. -/
theorem exists_mem_parts {e : Expr} (h : c ∈ e.children) : ∃ l, (l, c) ∈ e.parts := by
  cases e with
  | block => exact exists_mem_partsSeq h
  | function => exact ⟨_, mem_map_of_mem h⟩
  | forIn =>
    rcases mem_cons.1 h with rfl | h
    · exact ⟨_, mem_cons_self⟩
    · exact ⟨_, mem_cons_of_mem _ (mem_map_of_mem h)⟩
  | tryCatch =>
    rcases mem_append.1 h with h | h
    · exact ⟨_, mem_append_left _ (mem_map_of_mem h)⟩
    · obtain ⟨k, hk, hc⟩ := mem_filterMap.1 h
      refine ⟨[k.var], mem_append_right _ (mem_flatMap.2 ⟨k, hk, ?_⟩)⟩
      exact mem_map_of_mem (Option.mem_toList.2 hc)
  | _ => exact ⟨[], mem_map_of_mem h⟩

end Expr

/-! ## Rules -/

/-- What is asked of a variable, given the declarations in whose scope it
stands, innermost first. Temporaries satisfy every rule as long as their
numbers are not met again. -/
structure ScopeRule where
  /-- The variable may be read. -/
  reads : List Var → Var → Prop
  /-- A local or a parameter may be declared. -/
  declares : List Var → Var → Prop
  /-- The variable of a loop or of a handler may be bound. -/
  binds : List Var → Var → Prop
  /-- A declaration of the first variable does not matter for the
  second. -/
  apart : Var → Var → Prop
  reads_insert {l env : List Var} {d v : Var} :
    apart d v → reads (l ++ env) v → reads (l ++ d :: env) v
  declares_insert {l env : List Var} {d v : Var} :
    apart d v → declares (l ++ env) v → declares (l ++ d :: env) v
  binds_insert {l env : List Var} {d v : Var} :
    apart d v → binds (l ++ env) v → binds (l ++ d :: env) v
  apart_temp {d v : Var} : d.isTemp = true ∨ v.isTemp = true → d.id ≠ v.id → apart d v
  reads_local {env : List Var} {v : Var} : v.isTemp = false → reads (v :: env) v
  reads_temp {t : Var} : t.isTemp = true → reads [t] t
  declares_temp {t : Var} : t.isTemp = true → declares [] t

namespace ScopeRule

variable (R : ScopeRule)
variable {t : Var} {D : List Var}

def DeclaresAll (env : List Var) : List Var → Prop
  | [] => True
  | v :: rest => R.declares env v ∧ DeclaresAll (v :: env) rest

def Admits (env : List Var) : Expr → Prop
  | .local _ var => R.reads env var
  | .varDecl _ var _ => R.declares env var
  | .function _ _ params _ _ => R.DeclaresAll env (params.map Param.var)
  | .forIn _ var _ _ => R.binds env var
  | .tryCatch _ _ _ handlers => ∀ h ∈ handlers, R.binds env h.var
  | _ => True

variable {R} {l env : List Var} {d : Var}

/-- Parameters may be declared as before where one more declaration does not matter for them. -/
theorem DeclaresAll.insert : ∀ {vs l : List Var}, (∀ v ∈ vs, R.apart d v) →
    R.DeclaresAll (l ++ env) vs → R.DeclaresAll (l ++ d :: env) vs
  | [], _, _, _ => trivial
  | v :: _, l, hd, h => by
    rw [forall_mem_cons] at hd
    exact ⟨R.declares_insert hd.1 h.1, DeclaresAll.insert (l := v :: l) hd.2 h.2⟩

/-- A node stands as before after a declaration that does not matter for it. -/
theorem Admits.insert {e : Expr} (hd : ∀ v ∈ e.vars, R.apart d v) (h : R.Admits (l ++ env) e) :
    R.Admits (l ++ d :: env) e := by
  cases e with
  | «local» _ v => exact R.reads_insert (hd v (.head _)) h
  | varDecl _ v _ => exact R.declares_insert (hd v (.head _)) h
  | function => exact DeclaresAll.insert hd h
  | forIn _ v _ _ => exact R.binds_insert (hd v (.head _)) h
  | tryCatch => exact fun k hk => R.binds_insert (hd k.var (mem_map_of_mem hk)) (h k hk)
  | _ => trivial

/-- A temporary may be read where nothing else in scope matters for
it. -/
theorem reads_own (ht : t.isTemp = true) :
    ∀ {l : List Var}, (∀ d ∈ l, R.apart d t) → (∀ d ∈ env, R.apart d t) →
      R.reads (l ++ t :: env) t := by
  -- The declarations after the temporary are inserted one by one, then those before it.
  have hafter : (∀ d ∈ env, R.apart d t) → R.reads ([t] ++ env) t := by
    induction env with
    | nil => exact fun _ => R.reads_temp ht
    | cons d env ih =>
      intro h
      rw [forall_mem_cons] at h
      exact R.reads_insert h.1 (ih h.2)
  intro l hl henv
  induction l with
  | nil => exact hafter henv
  | cons d l ih =>
    rw [forall_mem_cons] at hl
    exact R.reads_insert (l := []) hl.1 (ih hl.2)

/-- A variable may be declared below further declarations that do not matter
for it. -/
theorem declares_append {v : Var} (h : R.declares env v) (hD : ∀ d ∈ D, R.apart d v) :
    R.declares (D ++ env) v := by
  induction D with
  | nil => exact h
  | cons d D ih =>
    rw [forall_mem_cons] at hD
    exact R.declares_insert (l := []) hD.1 (ih hD.2)

theorem binds_append {v : Var} (h : R.binds env v) (hD : ∀ d ∈ D, R.apart d v) :
    R.binds (D ++ env) v := by
  induction D with
  | nil => exact h
  | cons d D ih =>
    rw [forall_mem_cons] at hD
    exact R.binds_insert (l := []) hD.1 (ih hD.2)

/-- A temporary may be declared where nothing in scope matters for it. -/
theorem declares_own (ht : t.isTemp = true) (h : ∀ d ∈ env, R.apart d t) : R.declares env t := by
  have happend := declares_append (R.declares_temp ht) h
  rwa [append_nil] at happend

end ScopeRule

namespace Expr

variable {R : ScopeRule} {Q Q' : Expr → Prop} {env : List Var} {e : Expr}
variable {es : List Expr} {body : Option Expr} {v : Var} {inner value : Expr}
variable {g : Expr → Expr} {D : List Var} {cond : Expr}

/-- In the scope of `env`, every variable of the tree stands as the rule
asks, and every node of the tree has `Q`. -/
inductive Scoped (R : ScopeRule) (Q : Expr → Prop) : List Var → Expr → Prop
  | intro {env : List Var} {e : Expr} (admits : R.Admits env e) (node : Q e)
    (below : ∀ p ∈ e.parts, Scoped R Q (p.1 ++ env) p.2) : Scoped R Q env e

theorem scoped_iff :
    Scoped R Q env e ↔ (R.Admits env e ∧ Q e) ∧ ∀ p ∈ e.parts, Scoped R Q (p.1 ++ env) p.2 :=
  ⟨fun ⟨admits, node, below⟩ => ⟨⟨admits, node⟩, below⟩,
    fun ⟨⟨admits, node⟩, below⟩ => ⟨admits, node, below⟩⟩

def ScopedSeq (R : ScopeRule) (Q : Expr → Prop) (env : List Var) (es : List Expr) : Prop :=
  ∀ p ∈ partsSeq es, Scoped R Q (p.1 ++ env) p.2

theorem Scoped.mono (h : Scoped R Q env e) (hQ : ∀ n, Q n → Q' n) : Scoped R Q' env e := by
  induction h with
  | intro admits node _ ih => exact ⟨admits, hQ _ node, ih⟩

/-- The property of the nodes, without the scopes. -/
theorem Scoped.throughout (h : Scoped R Q env e) : Throughout Q e := by
  induction h with
  | intro _ node _ ih =>
    refine ⟨node, fun c hc => ?_⟩
    obtain ⟨l, hl⟩ := exists_mem_parts hc
    exact ih (l, c) hl

theorem Scoped.and (h : Scoped R Q env e) (h' : Throughout Q' e) :
    Scoped R (fun n => Q n ∧ Q' n) env e := by
  induction h with
  | intro admits node _ ih =>
    exact ⟨admits, ⟨node, h'.node⟩, fun p hp => ih p hp (h'.child (mem_children_of_mem_parts hp))⟩

/-- What does not matter for the variables of a tree may come into scope
anywhere. -/
theorem Scoped.insert {d : Var} : ∀ {l : List Var}, Names (R.apart d) e →
    Scoped R Q (l ++ env) e → Scoped R Q (l ++ d :: env) e := by
  induction e using induction_on_children with
  | step e ih =>
  intro l hd h
  rw [scoped_iff] at h ⊢
  refine ⟨⟨h.1.1.insert (names_iff.1 hd).1, h.1.2⟩, fun p hp => ?_⟩
  have hc := mem_children_of_mem_parts hp
  have hbelow := h.2 p hp
  rw [← append_assoc] at hbelow ⊢
  exact ih p.2 hc ((names_iff.1 hd).2 _ hc) hbelow

/-- `B` is `A` with more declarations in between, all with `P`. -/
inductive Inserts (P : Var → Prop) : List Var → List Var → Prop
  | nil : Inserts P [] []
  | keep {A B : List Var} (d : Var) : Inserts P A B → Inserts P (d :: A) (d :: B)
  | add {A B : List Var} {d : Var} : P d → Inserts P A B → Inserts P A (d :: B)

section Inserts

variable {P P' : Var → Prop} {A A' B B' : List Var}

theorem inserts_nil_left : Inserts P [] B ↔ ∀ d ∈ B, P d := by
  induction B with
  | nil => exact ⟨fun _ _ h => (nomatch h), fun _ => .nil⟩
  | cons d B ih =>
    rw [forall_mem_cons, ← ih]
    exact ⟨fun h => by cases h with | add hd h => exact ⟨hd, h⟩, fun h => .add h.1 h.2⟩

theorem Inserts.refl : ∀ A : List Var, Inserts P A A
  | [] => .nil
  | d :: A => .keep d (Inserts.refl A)

theorem Inserts.append (h : Inserts P A B) (h' : Inserts P A' B') :
    Inserts P (A ++ A') (B ++ B') := by
  induction h with
  | nil => exact h'
  | keep d _ ih => exact .keep d ih
  | add hd _ ih => exact .add hd ih

/-- A property of the declarations passes to the longer list. -/
theorem Inserts.forall (h : Inserts P A B) (hA : ∀ d ∈ A, P' d) (hP : ∀ d, P d → P' d) :
    ∀ d ∈ B, P' d := by
  induction h with
  | nil => exact hA
  | keep d _ ih =>
    rw [forall_mem_cons] at hA ⊢
    exact ⟨hA.1, ih hA.2⟩
  | add hd _ ih => exact forall_mem_cons.2 ⟨hP _ hd, ih hA⟩

/-- More declarations that do not matter for the variables of a tree. -/
theorem Scoped.inserts (hAB : Inserts P A B) (hP : ∀ d, P d → Names (R.apart d) e) :
    ∀ {l : List Var}, Scoped R Q (l ++ (A ++ env)) e → Scoped R Q (l ++ (B ++ env)) e := by
  induction hAB with
  | nil => exact fun h => h
  | keep d _ ih =>
    intro l h
    rw [cons_append, append_cons] at h ⊢
    exact ih h
  | add hd _ ih => exact fun h => (ih h).insert (hP _ hd)

/-- Declarations that do not matter may come into scope further in. -/
theorem Scoped.weaken (hD : ∀ d ∈ D, Names (R.apart d) e) (h : Scoped R Q env e) :
    Scoped R Q (D ++ env) e :=
  Scoped.inserts (P := fun d => Names (R.apart d) e) (l := []) (A := [])
    (inserts_nil_left.2 hD) (fun _ hd => hd) h

end Inserts

@[simp] theorem declared_nil : declared [] = [] := rfl

@[simp] theorem declared_cons (e : Expr) (es : List Expr) :
    declared (e :: es) = declared es ++ e.declares := rfl

/-- The later statements bring the inner declarations. -/
@[simp] theorem declared_append (es fs : List Expr) :
    declared (es ++ fs) = declared fs ++ declared es := by
  induction es with
  | nil => rw [nil_append, declared_nil, append_nil]
  | cons e rest ih => rw [cons_append, declared_cons, declared_cons, ih, append_assoc]

@[simp] theorem scopedSeq_nil : ScopedSeq R Q env [] := fun _ h => nomatch h

@[simp] theorem scopedSeq_cons (e : Expr) (es : List Expr) :
    ScopedSeq R Q env (e :: es) ↔ Scoped R Q env e ∧ ScopedSeq R Q (e.declares ++ env) es := by
  unfold ScopedSeq
  rw [partsSeq, forall_mem_cons, forall_mem_map]
  simp only [nil_append, append_assoc]

/-- Two sequences, the second in the scope of the first. -/
@[simp] theorem scopedSeq_append {fs : List Expr} :
    ScopedSeq R Q env (es ++ fs) ↔
      ScopedSeq R Q env es ∧ ScopedSeq R Q (declared es ++ env) fs := by
  induction es generalizing env with
  | nil => simp
  | cons e rest ih => simp [ih, and_assoc]

/-- A sequence stands as before among more declarations that do not matter
for it. -/
theorem ScopedSeq.inserts {P : Var → Prop} {A B : List Var} (hAB : Inserts P A B)
    (hP : ∀ d, P d → ∀ e ∈ es, Names (R.apart d) e) (h : ScopedSeq R Q (A ++ env) es) :
    ScopedSeq R Q (B ++ env) es :=
  fun p hp => Scoped.inserts hAB (fun d hd => hP d hd p.2 (mem_of_mem_partsSeq hp)) (h p hp)

theorem ScopedSeq.weaken (hD : ∀ d ∈ D, ∀ e ∈ es, Names (R.apart d) e) (h : ScopedSeq R Q env es) :
    ScopedSeq R Q (D ++ env) es :=
  ScopedSeq.inserts (P := fun d => ∀ e ∈ es, Names (R.apart d) e) (A := [])
    (inserts_nil_left.2 hD) (fun _ hd => hd) h

theorem ScopedSeq.mono (h : ScopedSeq R Q env es) (hQ : ∀ n, Q n → Q' n) : ScopedSeq R Q' env es :=
  fun p hp => (h p hp).mono hQ

theorem ScopedSeq.throughout (h : ScopedSeq R Q env es) : ∀ e ∈ es, Throughout Q e := by
  intro e he
  obtain ⟨l, hl⟩ := exists_mem_partsSeq he
  exact (h (l, e) hl).throughout

/-! ## Node by node -/

section Node

variable {loc : Loc} {type : Ty}

def isPlain : Expr → Bool
  | .local .. | varDecl .. | function .. | block .. | forIn .. | tryCatch .. => false
  | _ => true

/-- Below a plain node the scope is the one around it. -/
theorem scoped_plain (h : e.isPlain = true) :
    Scoped R Q env e ↔ Q e ∧ ∀ c ∈ e.children, Scoped R Q env c := by
  have hadmits : R.Admits env e := by cases e <;> trivial
  have hparts : e.parts = e.children.map ([], ·) := by cases e <;> first | rfl | cases h
  rw [scoped_iff, hparts, forall_mem_map]
  simp only [hadmits, true_and, nil_append]

def plainChildren (e : Expr) : Option (List Expr) := if e.isPlain then some e.children else none

/-- The same with the nodes below it read off. -/
theorem scoped_of_plainChildren (h : e.plainChildren = some es) :
    Scoped R Q env e ↔ Q e ∧ ∀ c ∈ es, Scoped R Q env c := by
  obtain ⟨hplain, hes⟩ := Option.ite_none_right_eq_some.1 h
  rw [scoped_plain hplain, Option.some.inj hes]

theorem scoped_leaf (h : e.plainChildren = some []) : Scoped R Q env e ↔ Q e := by
  simp [scoped_of_plainChildren h]

theorem scoped_one (h : e.plainChildren = some [inner]) :
    Scoped R Q env e ↔ Q e ∧ Scoped R Q env inner := by
  simp [scoped_of_plainChildren h]

theorem scoped_two (h : e.plainChildren = some [inner, value]) :
    Scoped R Q env e ↔ Q e ∧ Scoped R Q env inner ∧ Scoped R Q env value := by
  simp [scoped_of_plainChildren h]

@[simp] theorem scoped_local :
    Scoped R Q env (.local loc v) ↔ R.reads env v ∧ Q (.local loc v) := by
  rw [scoped_iff]
  simp [parts, children, ScopeRule.Admits]

@[simp] theorem scoped_field {ref : MemberRef} {receiver : Option Expr} :
    Scoped R Q env (.field loc type ref receiver) ↔
      Q (.field loc type ref receiver) ∧ ∀ r ∈ receiver, Scoped R Q env r := by
  rw [scoped_plain rfl]
  simp [children]

@[simp] theorem scoped_object {fields : List (FieldInit Expr)} :
    Scoped R Q env (.object loc type fields) ↔
      Q (.object loc type fields) ∧ ∀ f ∈ fields, Scoped R Q env f.value := by
  rw [scoped_plain rfl]
  simp [children]

@[simp] theorem scoped_call {callee : Expr} {args : List Expr} :
    Scoped R Q env (.call loc type callee args) ↔
      Q (.call loc type callee args) ∧ Scoped R Q env callee ∧ ∀ a ∈ args, Scoped R Q env a := by
  rw [scoped_plain rfl]
  simp [children]

/-- The initial value stands outside the scope of what is declared. -/
@[simp] theorem scoped_varDecl {init : Option Expr} :
    Scoped R Q env (.varDecl loc v init) ↔
      (R.declares env v ∧ Q (.varDecl loc v init)) ∧ ∀ i ∈ init, Scoped R Q env i := by
  rw [scoped_iff]
  simp [parts, children, ScopeRule.Admits]

@[simp] theorem scoped_ite {onTrue onFalse : Option Expr} :
    Scoped R Q env (.ite loc type cond onTrue onFalse) ↔
      Q (.ite loc type cond onTrue onFalse) ∧ Scoped R Q env cond ∧
        (∀ t ∈ onTrue, Scoped R Q env t) ∧ ∀ f ∈ onFalse, Scoped R Q env f := by
  rw [scoped_plain rfl]
  simp [children, or_imp, forall_and]

@[simp] theorem scoped_loop {test : LoopTest} :
    Scoped R Q env (.loop loc test cond body) ↔
      Q (.loop loc test cond body) ∧ Scoped R Q env cond ∧ ∀ b ∈ body, Scoped R Q env b := by
  rw [scoped_plain rfl]
  simp [children]

@[simp] theorem scoped_ret {value : Option Expr} :
    Scoped R Q env (.ret loc value) ↔ Q (.ret loc value) ∧ ∀ v ∈ value, Scoped R Q env v := by
  rw [scoped_plain rfl]
  simp [children]

@[simp] theorem scoped_switch {subject : Expr} {cases : List (Case Expr)} {default : Option Expr} :
    Scoped R Q env (.switch loc type subject cases default) ↔
      Q (.switch loc type subject cases default) ∧ Scoped R Q env subject ∧
        (∀ c ∈ cases, (∀ v ∈ c.values, Scoped R Q env v) ∧ ∀ b ∈ c.body, Scoped R Q env b) ∧
          ∀ d ∈ default, Scoped R Q env d := by
  rw [scoped_plain rfl]
  simp only [children, forall_mem_cons, forall_mem_append, forall_mem_flatMap,
    Option.mem_toList, Option.mem_def]

/-- A block opens a scope for its statements. -/
@[simp] theorem scoped_block :
    Scoped R Q env (.block loc type es) ↔ Q (.block loc type es) ∧ ScopedSeq R Q env es := by
  rw [scoped_iff]
  simp only [ScopeRule.Admits, true_and, parts]
  rfl

/-- The iterator stands outside the scope of the variable of the loop. -/
@[simp] theorem scoped_forIn {iterator : Expr} :
    Scoped R Q env (.forIn loc v iterator body) ↔
      (R.binds env v ∧ Q (.forIn loc v iterator body)) ∧ Scoped R Q env iterator ∧
        ∀ b ∈ body, Scoped R Q (v :: env) b := by
  rw [scoped_iff]
  simp [parts, ScopeRule.Admits]

@[simp] theorem scoped_tryCatch {handlers : List (Handler Expr)} :
    Scoped R Q env (.tryCatch loc type body handlers) ↔
      ((∀ h ∈ handlers, R.binds env h.var) ∧ Q (.tryCatch loc type body handlers)) ∧
        (∀ b ∈ body, Scoped R Q env b) ∧
          ∀ h ∈ handlers, ∀ b ∈ h.body, Scoped R Q (h.var :: env) b := by
  rw [scoped_iff]
  simp only [ScopeRule.Admits, parts, forall_mem_append, forall_mem_map,
    forall_mem_flatMap, Option.mem_toList, Option.mem_def, nil_append,
    cons_append]

/-- The default values and the body stand in the scope of all parameters. -/
@[simp] theorem scoped_function {params : List (Param Expr)} {result : Ty} :
    Scoped R Q env (.function loc type params result body) ↔
      (R.DeclaresAll env (params.map Param.var) ∧ Q (.function loc type params result body)) ∧
        (∀ p ∈ params, ∀ d ∈ p.default, Scoped R Q ((params.map Param.var).reverse ++ env) d) ∧
        ∀ b ∈ body, Scoped R Q ((params.map Param.var).reverse ++ env) b := by
  rw [scoped_iff]
  simp only [ScopeRule.Admits, parts, forall_mem_map, forall_mem_append,
    Option.mem_toList, mem_filterMap, forall_exists_index, and_imp]
  exact and_congr_right fun _ => and_congr_left fun _ =>
    ⟨fun h p hp d hd => h d p hp hd, fun h d p hp hd => h p hp d hd⟩

end Node

def Naming (P : Var → Prop) (n : Expr) : Prop := ∀ v ∈ n.vars, P v

/-- The second tree names the same variables in the same scopes, or fewer
of them. -/
structure Recast (e e' : Expr) : Prop where
  declares : e'.declares = e.declares
  keeps (R : ScopeRule) (P : Var → Prop) (env : List Var) :
    Scoped R (Naming P) env e → Scoped R (Naming P) env e'

/-- A node recasts if it names and declares the same and its parts recast in
order. -/
theorem recast_of_parts {e' : Expr} (hdeclares : e'.declares = e.declares)
    (hvars : e'.vars = e.vars) (hadmits : ∀ (R : ScopeRule) env, R.Admits env e → R.Admits env e')
    (hparts : List.Forall₂ (fun p p' => p.1 = p'.1 ∧ Recast p.2 p'.2) e.parts e'.parts) :
    Recast e e' := by
  refine ⟨hdeclares, fun R P env h => ?_⟩
  rw [scoped_iff] at h ⊢
  refine ⟨⟨hadmits R env h.1.1, fun v hv => h.1.2 v (hvars ▸ hv)⟩, ?_⟩
  have hbelow := h.2
  clear h
  generalize e.parts = ps, e'.parts = ps' at hparts hbelow ⊢
  induction hparts with
  | nil => exact hbelow
  | cons hp _ ih =>
    rw [forall_mem_cons] at hbelow ⊢
    exact ⟨hp.1 ▸ hp.2.keeps R P _ hbelow.1, ih hbelow.2⟩

theorem recast_partsSeq (h : ∀ c ∈ es, Recast c (g c)) :
    List.Forall₂ (fun p p' => p.1 = p'.1 ∧ Recast p.2 p'.2) (partsSeq es) (partsSeq (es.map g)) := by
  induction es with
  | nil => exact .nil
  | cons e rest ih =>
    obtain ⟨he, hrest⟩ := forall_mem_cons.1 h
    refine .cons ⟨rfl, he⟩ ?_
    rw [forall₂_map_left_iff, forall₂_map_right_iff]
    exact (ih hrest).imp fun _ _ hp => ⟨by rw [hp.1, he.declares], hp.2⟩

/-- Changing the children keeps the variables of the node. -/
theorem vars_mapChildren (e : Expr) : (e.mapChildren g).vars = e.vars := by
  cases e <;> simp [mapChildren, vars, Function.comp_def]

theorem forall₂_scope {l : List Var} (h : ∀ c ∈ es, Recast c (g c)) :
    List.Forall₂ (fun p p' => p.1 = p'.1 ∧ Recast p.2 p'.2) (es.map (l, ·))
      ((es.map g).map (l, ·)) := by
  rw [map_map, forall₂_map_left_iff, forall₂_map_right_iff, forall₂_same]
  exact fun c hc => ⟨rfl, h c hc⟩

/-- A node recasts if the nodes directly below it do. -/
theorem recast_mapChildren (h : ∀ c ∈ e.children, Recast c (g c)) : Recast e (e.mapChildren g) := by
  refine recast_of_parts ?_ (vars_mapChildren e) (fun R env => ?_) ?_
  · cases e with
    | paren _ _ inner => exact (h inner (.head _)).declares
    | annot _ _ _ inner => exact (h inner (.head _)).declares
    | _ => rfl
  · cases e with
    | function =>
      rw [mapChildren, ScopeRule.Admits, ScopeRule.Admits, map_map]
      exact id
    | tryCatch =>
      rw [mapChildren, ScopeRule.Admits, ScopeRule.Admits, forall_mem_map]
      exact id
    | _ => exact id
  · cases e with
    | block => exact recast_partsSeq h
    | function loc type params =>
      have hparts := forall₂_scope (l := (params.map Param.var).reverse) h
      rw [← children_mapChildren] at hparts
      rw [mapChildren, parts, parts, map_map]
      exact hparts
    | forIn _ _ =>
      obtain ⟨hiterator, hbody⟩ := forall_mem_cons.1 h
      refine .cons ⟨rfl, hiterator⟩ ?_
      rw [Option.toList_map]
      exact forall₂_scope hbody
    | tryCatch _ _ body handlers =>
      obtain ⟨hbody, hhandlers⟩ := forall_mem_append.1 h
      rw [mapChildren, parts, parts, Option.toList_map, flatMap_map]
      have hsame : List.Forall₂ (fun k k' => k = k' ∧ ∀ c ∈ k.body.toList, Recast c (g c)) handlers
          handlers := forall₂_same.2 fun k hk => ⟨rfl, fun c hc =>
        hhandlers c (mem_filterMap.2 ⟨k, hk, Option.mem_toList.1 hc⟩)⟩
      refine rel_append (forall₂_scope hbody) (rel_flatMap hsame fun k k' hk => ?_)
      obtain ⟨rfl, hk⟩ := hk
      rw [Option.toList_map]
      exact forall₂_scope hk
    | _ =>
      have hparts := forall₂_scope (l := []) h
      rw [← children_mapChildren] at hparts
      exact hparts

theorem Recast.refl (e : Expr) : Recast e e := ⟨rfl, fun _ _ _ => id⟩

theorem Recast.trans {a b c : Expr} (ha : Recast a b) (hb : Recast b c) : Recast a c :=
  ⟨hb.declares.trans ha.declares, fun R P env h => hb.keeps R P env (ha.keeps R P env h)⟩

/-- A tree recasts if each step of rebuilding it does. -/
theorem Recast.rebuild (hg : ∀ e, Recast e (g e)) (e : Expr) : Recast e (e.rebuild g) :=
  rebuild_induction (.refl _) (fun _ ih => (recast_mapChildren ih).trans (hg _)) e

theorem recast_retype (e : Expr) : Recast e e.retype := by
  cases e with
  | paren | annot =>
    refine ⟨rfl, fun R P env h => ?_⟩
    exact (scoped_one rfl).2 ⟨((scoped_one rfl).1 h).1, ((scoped_one rfl).1 h).2⟩
  | _ => exact .refl _

/-- Bringing the types of a tree up to date moves no variable. -/
theorem recast_retyped (e : Expr) : Recast e e.retyped := Recast.rebuild recast_retype e

end Expr

end LuaBackend
