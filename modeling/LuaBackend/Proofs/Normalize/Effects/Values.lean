import LuaBackend.Proofs.Normalize.Effects.Account
import LuaBackend.Proofs.Normalize.Prediction

/-!
# Effects of values

`Audited` says that an account is right about a lowering: what is written,
together with what is lost, is what the node has, together with what is
cloned; and what stays in a value is what the residue says. The residues
of the parts decide what moves into a temporary.
-/

namespace LuaBackend.Normalize

open Expr Lowering List Residue Balance

variable {x : Site}
variable {r : Residue} {e : Expr}
variable {ls : List Lowering} {value : Norm Hoisted}

/-- What was taken is what the residue says. -/
structure Leaves (x : Site) (r : Residue) (h : Hoisted) : Prop where
  emits : h.stmts.isEmpty = !r.emits
  pure : h.value.isPure = r.pure
  stable : h.value.isStable = r.stable
  left : h.value.occurrences x = r.left

/-- Written and lost is what there was and what is cloned. -/
@[grind]
def Balanced (written there : Nat) (b : Balance) : Prop := written + b.lost = there + b.clones

def Takes (x : Site) (value : Norm Hoisted) (r : Residue) (there : Nat) (b : Balance) : Prop :=
  Yields value fun h => Leaves x r h ∧
    Balanced (occurrencesList x h.stmts + h.value.occurrences x) there b

def Puts (x : Site) (stmts : Norm (List Expr)) (emits : Bool) (there : Nat) (b : Balance) :
    Prop :=
  Yields stmts fun stmts => stmts.isEmpty = !emits ∧ Balanced (occurrencesList x stmts) there b

/-- The account is right about the lowering. -/
structure Audited (x : Site) (l : Lowering) (a : Account) : Prop where
  source : l.source = a.source
  value : Takes x l.value a.value (l.source.occurrences x) (a.balance .taken)
  target : ∀ how, Takes x (l.target how) (a.target how) (l.source.occurrences x) (a.balance .placed)
  stmt : ∀ assignee, Puts x (l.stmt assignee) (a.emits assignee.isSome)
    (l.source.occurrences x + a.ends * occurrencesOption x assignee)
    (a.balance (.ofStmt assignee.isSome))
  body : ∀ assignee, Yields (l.body assignee) fun stmts => Balanced (occurrencesList x stmts)
    (l.source.occurrences x + a.ends * occurrencesOption x assignee)
    (a.balance (.ofStmt assignee.isSome))

attribute [grind] Account.scope Account.scopeEnds Account.takenAll Account.takenOption Use.ofStmt

theorem isEmpty_append (es fs : List Expr) : (es ++ fs).isEmpty = (es.isEmpty && fs.isEmpty) := by
  cases es <;> rfl

/-- No statements: the residue says so. -/
theorem Leaves.quiet {h : Hoisted} (hh : Leaves x r h) (hs : h.stmts.isEmpty = true) :
    r.emits = false ∧ h.stmts = [] := by
  have hemits := hh.emits
  rw [hs] at hemits
  exact ⟨by simpa using hemits.symm, by simpa using hs⟩

theorem Leaves.loud {h : Hoisted} (hh : Leaves x r h) (hs : ¬h.stmts.isEmpty = true) :
    r.emits = true ∧ h.stmts ≠ [] := by
  have hemits := hh.emits
  exact ⟨by simpa [hs] using hemits.symm, by simpa using hs⟩

/-! ## Temporaries and operands -/

theorem leaves_temp {stmts : List Expr} {loc : Loc} {t : Var} (ht : t.isTemp = true)
    (hs : stmts ≠ []) : Leaves x .temp ⟨stmts, .local loc t⟩ :=
  ⟨by simpa [temp] using hs, rfl, ht, rfl⟩

/-- Moving a value moves its effects into a statement. -/
theorem yields_spill_leaves {h : Hoisted} (hh : Leaves x r h) (needed : Bool) :
    Yields (spill needed h.value) fun y => Leaves x (r.spill needed) ⟨h.stmts ++ y.stmts, y.value⟩ ∧
      occurrencesList x y.stmts + y.value.occurrences x = h.value.occurrences x := by
  refine yields_spill (fun hn t ht => ⟨?_, ?_⟩) fun hn => ⟨?_, ?_⟩
  · subst hn
    exact leaves_temp ht (by simp)
  · simp [occurrencesList, occurrences, occurrencesOption]
  · subst hn
    rw [append_nil]
    exact hh
  · simp [occurrencesList]

def leftOf (x : Site) (moved : Bool) : List Expr → Nat
  | [] => 0
  | e :: rest => (if moved && !e.isStable then 0 else e.occurrences x) + leftOf x moved rest

theorem leftOf_append (moved : Bool) (es fs : List Expr) :
    leftOf x moved (es ++ fs) = leftOf x moved es + leftOf x moved fs := by
  induction es with
  | nil => simp [leftOf]
  | cons e rest ih => simp only [cons_append, leftOf, ih]; omega

theorem leftOf_false (es : List Expr) : leftOf x false es = occurrencesList x es := by
  induction es with
  | nil => rfl
  | cons e rest ih => simp [leftOf, occurrencesList, ih]

theorem leftOf_stable {moved : Bool} {es : List Expr} (h : ∀ e ∈ es, e.isStable = true) :
    leftOf x moved es = occurrencesList x es := by
  induction es with
  | nil => rfl
  | cons e rest ih =>
    rw [forall_mem_cons] at h
    simp [leftOf, occurrencesList, ih h.2, h.1]

/-- What is moved keeps its place in the list. -/
theorem yields_spillUnstable (x : Site) (es : List Expr) : Yields (spillUnstable es) fun r =>
    r.2.length = es.length ∧ (∀ e ∈ r.2, e.isStable = true) ∧
      occurrencesList x r.2 = leftOf x true es ∧
      occurrencesList x r.1 + occurrencesList x r.2 = occurrencesList x es := by
  induction es with
  | nil => exact yields_pure ⟨rfl, fun _ h => absurd h not_mem_nil, rfl, rfl⟩
  | cons e rest hrest =>
    refine (yields_spill (Q := fun y => y.value.isStable = true ∧
      y.value.occurrences x = (if !e.isStable then 0 else e.occurrences x) ∧
      occurrencesList x y.stmts + y.value.occurrences x = e.occurrences x)
      (fun hn t ht => ⟨ht, ?_, ?_⟩) fun hn => ⟨?_, ?_, ?_⟩).bind fun y hy => hrest.bind fun r hr => ?_
    · rw [if_pos hn]
      rfl
    · simp [occurrencesList, occurrences, occurrencesOption]
    · simpa using hn
    · rw [hn]
      rfl
    · simp [occurrencesList]
    · obtain ⟨hstable, hleft, htotal⟩ := hy
      obtain ⟨hlen, hall, hrleft, hrtotal⟩ := hr
      refine yields_pure ⟨?_, forall_mem_cons.2 ⟨hstable, hall⟩, ?_, ?_⟩
      · rw [length_cons, length_cons, hlen]
      · simp only [occurrencesList, leftOf, Bool.true_and, hleft, hrleft]
      · grind

/-- Operands keep what is left in them, as far as no later one moves them. -/
theorem yields_operandsAfter {as : List Account} (h : List.Forall₂ (Audited x) ls as) :
    ∀ done : List Expr,
    Yields (operandsAfter done (ls.map Lowering.value)) fun r =>
      r.1.isEmpty = !anyEmits (as.map Account.value) ∧
      r.2.length = done.length + ls.length ∧
      occurrencesList x r.2 = leftOf x (anyEmits (as.map Account.value)) done +
        leftInAll (as.map Account.value) ∧
      Balanced (occurrencesList x r.1 + occurrencesList x r.2)
        (occurrencesList x done + occurrencesList x (ls.map source))
        (Account.takenAll as) := by
  induction h with
  | nil =>
    refine fun done => yields_pure ⟨rfl, rfl, ?_, ?_⟩
    · exact (leftOf_false done).symm
    · simp [Balanced, occurrencesList, Account.takenAll]
  | @cons l a ls as hl _ ih =>
    intro done
    refine hl.value.bind fun y hy => ?_
    obtain ⟨hleaves, hbalance⟩ := hy
    -- the value just taken moves if a later one needs statements
    have hlast (moved : Bool) : leftOf x moved [y.value] =
        (a.value.spill (moved && !a.value.stable)).left := by
      unfold leftOf leftOf Residue.spill
      rw [hleaves.stable, hleaves.left]
      split <;> simp [temp]
    unfold Balanced at hbalance ih ⊢
    simp only [map_cons, anyEmits, leftInAll, occurrencesList,
      Account.takenAll, lost_add, clones_add] at ih ⊢
    split
    · rename_i hempty
      obtain ⟨hquiet, hnone⟩ := hleaves.quiet hempty
      refine (ih (done ++ [y.value])).mono fun r hr => ?_
      obtain ⟨hre, hrlen, hrleft, hrtotal⟩ := hr
      rw [leftOf_append, hlast] at hrleft
      rw [hquiet, Bool.false_or]
      refine ⟨hre, ?_, ?_, ?_⟩
      · grind
      · omega
      · rw [hnone] at hbalance
        grind
    · rename_i hne
      obtain ⟨hloud, hstmts⟩ := hleaves.loud hne
      refine (yields_spillUnstable x done).bind fun spilled hd => ?_
      obtain ⟨spills, done'⟩ := spilled
      obtain ⟨hdlen, hdstable, hdleft, hdtotal⟩ := hd
      refine (ih (done' ++ [y.value])).bind fun later hr => ?_
      refine yields_pure ?_
      obtain ⟨hre, hrlen, hrleft, hrtotal⟩ := hr
      rw [leftOf_append, hlast, leftOf_stable hdstable] at hrleft
      rw [hloud, Bool.true_or]
      dsimp only at hdlen hdleft hdtotal hrlen hrleft hrtotal ⊢
      refine ⟨?_, ?_, ?_, ?_⟩
      · simp [hstmts]
      · grind
      · omega
      · grind

theorem yields_operands {as : List Account} (h : List.Forall₂ (Audited x) ls as) :
    Yields (operands (ls.map Lowering.value)) fun r =>
      r.1.isEmpty = !anyEmits (as.map Account.value) ∧ r.2.length = ls.length ∧
      occurrencesList x r.2 = leftInAll (as.map Account.value) ∧
      Balanced (occurrencesList x r.1 + occurrencesList x r.2)
        (occurrencesList x (ls.map source)) (Account.takenAll as) := by
  refine (yields_operandsAfter h []).mono fun r hr => ?_
  simpa [leftOf, occurrencesList] using hr

/-- The first operand moves if the second needs statements. -/
theorem yields_operandPair {l m : Lowering} {a b : Account} (hl : Audited x l a) (hm : Audited x m b) :
    Yields (operandPair l.value m.value) fun r =>
      Leaves x (a.value.before b.value) ⟨r.1, r.2.1⟩ ∧
      r.2.2.isPure = b.value.pure ∧ r.2.2.isStable = b.value.stable ∧
      r.2.2.occurrences x = b.value.left ∧
      Balanced (occurrencesList x r.1 + r.2.1.occurrences x + r.2.2.occurrences x)
        (l.source.occurrences x + m.source.occurrences x)
        (a.balance .taken + b.balance .taken) := by
  refine hl.value.bind fun y hy => hm.value.bind fun z hz => ?_
  obtain ⟨hy, hyb⟩ := hy
  obtain ⟨hz, hzb⟩ := hz
  unfold Balanced at hyb hzb ⊢
  split
  · rename_i hempty
    obtain ⟨hquiet, hnone⟩ := hz.quiet hempty
    refine yields_pure ⟨?_, hz.pure, hz.stable, hz.left, ?_⟩
    · unfold before
      rw [hquiet, Bool.or_false]
      exact hy
    · rw [hnone] at hzb
      grind
  · rename_i hne
    obtain ⟨hloud, hstmts⟩ := hz.loud hne
    refine (yields_spill_leaves hy (!y.value.isStable)).bind fun w hw => ?_
    obtain ⟨hw, hwb⟩ := hw
    refine yields_pure ⟨?_, hz.pure, hz.stable, hz.left, ?_⟩
    · unfold before
      rw [hloud, Bool.true_and, Bool.or_true, ← hy.stable]
      exact ⟨by simp [hstmts], hw.pure, hw.stable, hw.left⟩
    · grind

/-- A dropped value loses the effects left in it if it is pure. -/
theorem puts_storeOrDrop {loc : Loc} {n : Nat} {b : Balance} (h : Takes x value r n b)
    (assignee : Option Expr) :
    Puts x (storeOrDrop loc value assignee) (assignee.isSome || (r.emits || !r.pure))
      (n + 1 * occurrencesOption x assignee) b := by
  refine h.bind fun y hy => ?_
  obtain ⟨hy, hb⟩ := hy
  unfold Balanced at hb ⊢
  cases assignee with
  | some =>
    refine yields_pure ⟨by simp, ?_⟩
    simp only [occurrencesList_append, occurrencesList, occurrencesOption, mkAssign, mkBinary,
      occurrences]
    omega
  | none =>
    refine yields_pure ?_
    split
    · rename_i hpure
      have hzero := occurrences_of_isPure x y.value hpure
      rw [← hy.pure, hpure]
      refine ⟨by simpa using hy.emits, ?_⟩
      grind
    · rename_i himpure
      rw [← hy.pure, Bool.eq_false_iff.2 himpure]
      refine ⟨by simp, ?_⟩
      grind

theorem Audited.ofValue {b : Balance} (h : Takes x value r (e.occurrences x) b) :
    Audited x (.ofValue e value) (.ofValue e r b) where
  source := rfl
  value := h
  target _ := h
  stmt := puts_storeOrDrop h
  body assignee := (puts_storeOrDrop h assignee).mono fun _ hs => hs.2

/-- A node that is lowered to statements. -/
theorem Audited.ofStmt {stmt : Option Expr → Norm (List Expr)} {emits : Bool → Bool} {ends : Nat}
    {balance : Bool → Balance} (h : ∀ assignee, Puts x (stmt assignee) (emits assignee.isSome)
      (e.occurrences x + ends * occurrencesOption x assignee) (balance assignee.isSome)) :
    Audited x (.ofStmt e stmt) (.ofStmt e emits ends balance) := by
  -- Statements without a value yield null, others store into a temporary.
  have hnull : Takes x (do return ⟨← stmt none, .nullLit e.loc⟩)
      { plain with emits := emits false } (e.occurrences x) (balance false) := by
    refine (h none).bind fun stmts hs => yields_pure ⟨⟨hs.1, rfl, rfl, rfl⟩, ?_⟩
    simpa [occurrencesOption, nullLit, occurrences] using hs.2
  have htemp : Takes x (do
      let t ← freshTemp e.type
      let stmts ← stmt (some (.local e.loc t))
      return ⟨.varDecl e.loc t none :: stmts, .local e.loc t⟩) .temp (e.occurrences x)
      (balance true) := by
    refine (yields_freshTemp fun t ht => ht).bind fun t ht => ?_
    refine (h (some (.local e.loc t))).bind fun stmts hs => yields_pure ⟨leaves_temp ht (by simp), ?_⟩
    simpa [occurrencesOption, occurrences, occurrencesList] using hs.2
  have hvalue : Takes x (Lowering.ofStmt e stmt).value (Account.ofStmt e emits ends balance).value
      (e.occurrences x) (balance (!Account.yieldsNull e)) := by
    unfold Lowering.ofStmt Account.ofStmt Account.yieldsNull
    cases hb : e.isBlockLike with
    | false => exact hnull
    | true =>
      cases hv : (e.type.isUntyped || e.type.isKind .void) with
      | true =>
        simp only [valueOfStmts, hv]
        exact hnull
      | false =>
        simp only [valueOfStmts, hv]
        exact htemp
  have hstmt (assignee : Option Expr) : Puts x (stmt assignee) (emits assignee.isSome)
      (e.occurrences x + ends * occurrencesOption x assignee)
      ((Account.ofStmt e emits ends balance).balance (.ofStmt assignee.isSome)) := by
    cases assignee with
    | none => exact h none
    | some place => exact h (some place)
  exact ⟨rfl, hvalue, fun _ => hvalue, hstmt, fun assignee => (hstmt assignee).mono fun _ hs => hs.2⟩

theorem Audited.leaf (h : e.occurrences x = 0) : Audited x (.leaf e) (.leaf e) :=
  .ofValue (yields_pure ⟨⟨rfl, rfl, rfl, h⟩, by simp [Balanced, occurrencesList]⟩)

/-- An optional part, in a scope of its own. -/
theorem yields_scope {part : Option Lowering} {a : Option Account} (h : Option.Rel (Audited x) part a)
    (assignee : Option Expr) :
    Yields (scope part assignee) fun e => Balanced (e.occurrences x)
      (occurrencesOption x (part.map source) + Account.scopeEnds a * occurrencesOption x assignee)
      (Account.scope a assignee.isSome) := by
  cases h with
  | none => exact yields_pure (by simp [Balanced, occurrences, statements, occurrencesList,
      occurrencesOption, Account.scopeEnds, Account.scope])
  | some hl => exact (hl.body assignee).bind fun _ hs => yields_pure hs

namespace Audited

variable {loc : Loc} {type : Ty} {a b : Account} {lhs rhs inner operand : Lowering}
variable {as : List Account} {op : BinaryOp} {ref : MemberRef} {receiver : Option Lowering}
variable {args : List Lowering}
variable {value : Lowering} {α : Type}

/-! ## Members and elements -/

theorem moves_eq {h : Hoisted} (hh : Leaves x r h) (how : Spill) :
    how.needs h.value = how.moves r := by
  cases how with
  | none => rfl
  | impure => exact congrArg not hh.pure
  | unstable => exact congrArg not hh.stable

theorem leaves_field {stmts : List Expr} {v : Expr} (h : Leaves x r ⟨stmts, v⟩) :
    Leaves x { r with stable := ref.access = .enumCtor } ⟨stmts, .field loc type ref (some v)⟩ :=
  ⟨h.emits, h.pure, rfl, h.left⟩

/-- Effects in the body of a function do not count. -/
theorem yields_forwarder (x : Site) {receiver : Option Expr} :
    Yields (forwarder loc type ref receiver) fun e => e.isPure = true ∧
      e.isStable = true ∧ e.occurrences x = 0 := by
  have htemps : ∀ types : List Ty, Yields (freshTemps types) fun _ => True := by
    intro types
    induction types with
    | nil => exact yields_pure trivial
    | cons type rest ih =>
      exact (yields_freshTemp fun _ _ => trivial).bind fun _ _ => ih.bind fun _ _ =>
        yields_pure trivial
  exact (htemps _).bind fun _ _ => yields_pure ⟨rfl, rfl, rfl⟩

theorem takes_fieldTarget {a : Option Account} (h : Option.Rel (Audited x) receiver a) (how : Spill) :
    Takes x (fieldTarget loc type ref receiver how) (Account.fieldTarget ref a how)
      (occurrencesOption x (receiver.map Lowering.source)) (Account.takenOption a) := by
  cases h with
  | none => exact yields_pure ⟨⟨rfl, rfl, rfl, rfl⟩, rfl⟩
  | some hr =>
    refine hr.value.bind fun y hy => ?_
    obtain ⟨hy, hb⟩ := hy
    rw [moves_eq hy]
    refine (yields_spill_leaves hy _).bind fun z hz => yields_pure ⟨leaves_field hz.1, ?_⟩
    grind

theorem field {a : Option Account} (h : Option.Rel (Audited x) receiver a) :
    Audited x (.field loc type ref receiver) (.field loc type ref a) := by
  have htarget (how : Spill) : Takes x (Lowering.fieldTarget loc type ref receiver how)
      (Account.fieldTarget ref a how) (occurrencesOption x (receiver.map Lowering.source))
      (Account.takenOption a) := takes_fieldTarget h how
  cases h with
  | none =>
    have hvalue : Takes x (Lowering.fieldValue loc type ref none)
        { plain with stable := ref.isForwarded || decide (ref.access = .enumCtor) } 0 0 := by
      unfold Lowering.fieldValue
      by_cases hf : ref.isForwarded = true
      · rw [if_pos hf, hf]
        exact (yields_forwarder x).bind fun e he => yields_pure ⟨⟨rfl, he.1, he.2.1, he.2.2⟩,
          by simp [Balanced, occurrencesList, he.2.2]⟩
      · rw [if_neg hf, Bool.eq_false_iff.2 hf]
        exact yields_pure ⟨⟨rfl, rfl, (Bool.false_or _).symm, rfl⟩, rfl⟩
    have hnode := Audited.ofValue (e := Expr.field loc type ref none) hvalue
    exact ⟨rfl, hnode.value, htarget, hnode.stmt, hnode.body⟩
  | @some r a hr =>
    by_cases hf : ref.isForwarded = true
    · have hvalue : Takes x (Lowering.fieldValue loc type ref (some r))
          { plain with emits := (a.value.spill (!a.value.stable)).emits }
          (r.source.occurrences x)
          (a.balance .taken + ⟨0, (a.value.spill (!a.value.stable)).left⟩) := by
        refine hr.value.bind fun y hy => ?_
        obtain ⟨hy, hb⟩ := hy
        rw [if_pos hf, hy.stable]
        refine (yields_spill_leaves hy _).bind fun z hz => (yields_forwarder x).bind fun e he => ?_
        obtain ⟨hz, htotal⟩ := hz
        refine yields_pure ⟨⟨hz.emits, he.1, he.2.1, he.2.2⟩, ?_⟩
        have hleft := hz.left
        grind
      have hnode := Audited.ofValue (e := Expr.field loc type ref (some r.source)) hvalue
      unfold Account.field
      simp only [hf]
      refine ⟨congrArg (Expr.field loc type ref <| some ·) hr.source, hnode.value, htarget,
        fun assignee => ?_, fun assignee => ?_⟩
      · have hs := hnode.stmt assignee
        cases assignee <;> exact hs
      · have hs := hnode.body assignee
        cases assignee <;> exact hs
    · have hvalue : Takes x (Lowering.fieldValue loc type ref (some r))
          { a.value.spill (ref.access = .closure && !a.value.pure) with
            stable := ref.access = .enumCtor }
          (r.source.occurrences x) (a.balance .taken) := by
        refine hr.value.bind fun y hy => ?_
        obtain ⟨hy, hb⟩ := hy
        rw [if_neg hf, hy.pure]
        refine (yields_spill_leaves hy _).bind fun z hz => yields_pure ⟨leaves_field hz.1, ?_⟩
        grind
      have hnode := Audited.ofValue (e := Expr.field loc type ref (some r.source)) hvalue
      unfold Account.field
      simp only [Bool.eq_false_iff.2 hf]
      exact ⟨congrArg (Expr.field loc type ref <| some ·) hr.source, hnode.value, htarget,
        hnode.stmt, hnode.body⟩

/-- The base moves out of the way of the position. -/
theorem index {base position : Lowering} (hb : Audited x base a) (hp : Audited x position b) :
    Audited x (.index loc type base position) (.index loc type a b) := by
  have hsource : Expr.index loc type base.source position.source =
      .index loc type a.source b.source := by rw [hb.source, hp.source]
  have hvalue : Takes x (Lowering.index loc type base position).value
      (Account.index loc type a b).value (base.source.occurrences x + position.source.occurrences x)
      (a.balance .taken + b.balance .taken) := by
    refine (yields_operandPair hb hp).bind fun ⟨stmts, v, w⟩ h => ?_
    obtain ⟨hv, hpure, _, hleft, hbalance⟩ := h
    have hvemits := hv.emits
    refine yields_pure ⟨⟨?_, ?_, rfl, ?_⟩, ?_⟩
    · exact hvemits.trans (congrArg not (Bool.or_false _).symm)
    · exact congrArg₂ and hv.pure hpure
    · exact congrArg₂ (· + ·) hv.left hleft
    · grind
  have htarget (how : Spill) : Takes x (indexTarget loc type base position how)
      ((Account.index loc type a b).target how)
      (base.source.occurrences x + position.source.occurrences x)
      (a.balance .taken + b.balance .taken) := by
    refine (yields_operandPair hb hp).bind fun ⟨stmts, v, w⟩ h => ?_
    obtain ⟨hv, hpure, hstable, hleft, hbalance⟩ := h
    dsimp only at hpure hstable hleft hbalance
    -- The statements of both parts are out, so the position is moved without any.
    have hw : Leaves x { b.value with emits := false } ⟨[], w⟩ := ⟨rfl, hpure, hstable, hleft⟩
    have hneeds : how.needs w = how.moves { b.value with emits := false } := moves_eq hw how
    have hmoves : how.needs v = how.moves (a.value.before b.value) := moves_eq hv how
    dsimp only
    rw [hneeds, hmoves]
    refine (yields_spill_leaves hv _).bind fun y hy => (yields_spill_leaves hw _).bind fun z hz => ?_
    obtain ⟨hy, hytotal⟩ := hy
    obtain ⟨hz, hztotal⟩ := hz
    refine yields_pure ⟨⟨?_, ?_, rfl, ?_⟩, ?_⟩
    · rw [nil_append] at hz
      exact (isEmpty_append ..).trans
        ((congrArg₂ and hy.emits hz.emits).trans (Bool.not_or _ _).symm)
    · exact congrArg₂ and hy.pure hz.pure
    · exact congrArg₂ (· + ·) hy.left hz.left
    · grind
  have hnode := Audited.ofValue (e := Expr.index loc type base.source position.source) hvalue
  exact ⟨hsource, hnode.value, htarget, hnode.stmt, hnode.body⟩

/-! ## Wrappers, literals and calls -/

/-- A node that adds nothing to its part. -/
theorem wrap {l : Lowering} (f : Expr → Expr) (hi : Audited x inner a) (he : l.source = e)
    (hocc : e.occurrences x = inner.source.occurrences x)
    (hvalue : l.value = (do let h ← inner.value; return ⟨h.stmts, f h.value⟩))
    (hf : ∀ v, (f v).isPure = v.isPure ∧ (f v).isStable = v.isStable ∧
      (f v).occurrences x = v.occurrences x) (htarget : l.target = inner.target)
    (hstmt : l.stmt = inner.stmt) (hbody : l.body = inner.body) : Audited x l (.wrap e a) := by
  refine ⟨he, ?_, fun how => ?_, fun assignee => ?_, fun assignee => ?_⟩
  · rw [hvalue, he, hocc]
    refine hi.value.bind fun y hy => yields_pure ?_
    obtain ⟨hy, hb⟩ := hy
    obtain ⟨hpure, hstable, hleft⟩ := hf y.value
    refine ⟨⟨hy.emits, hpure.trans hy.pure, hstable.trans hy.stable, hleft.trans hy.left⟩, ?_⟩
    rw [hleft]
    exact hb
  · rw [htarget, he, hocc]
    exact hi.target how
  · rw [hstmt, he, hocc]
    exact hi.stmt assignee
  · rw [hbody, he, hocc]
    exact hi.body assignee

theorem paren (h : Audited x inner a) :
    Audited x (.paren loc type inner) (.wrap (.paren loc type inner.source) a) :=
  wrap (Expr.mkParen loc) h rfl rfl rfl (fun _ => ⟨rfl, rfl, rfl⟩) rfl rfl rfl

theorem annot {name : String} (h : Audited x inner a) :
    Audited x (.annot loc type name inner) (.wrap (.annot loc type name inner.source) a) :=
  wrap (Expr.mkAnnot loc name) h rfl rfl rfl (fun _ => ⟨rfl, rfl, rfl⟩) rfl rfl rfl

/-- A node with an effect of its own around one value. -/
theorem around {own : Nat} {pure : Bool} (f : Expr → Expr) (hi : Audited x inner a)
    (he : e.occurrences x = own + inner.source.occurrences x)
    (hf : ∀ v, (f v).isPure = (pure && v.isPure) ∧ (f v).isStable = false ∧
      (f v).occurrences x = own + v.occurrences x) :
    Audited x (.ofValue e do let h ← inner.value; return ⟨h.stmts, f h.value⟩)
      (.around e own pure a) := by
  refine ofValue (hi.value.bind fun y hy => yields_pure ?_)
  obtain ⟨hy, hb⟩ := hy
  obtain ⟨hpure, hstable, hleft⟩ := hf y.value
  refine ⟨⟨hy.emits, ?_, hstable, ?_⟩, ?_⟩
  · rw [hpure, hy.pure]
  · rw [hleft, hy.left]
  · unfold Balanced at hb ⊢
    dsimp only
    rw [hleft, he]
    omega

theorem cast {checked : Option TypePath} (h : Audited x inner a) :
    Audited x (.cast loc type checked inner) (.around (.cast loc type checked inner.source)
      (if checked.isSome then x.hit .cast loc else 0) checked.isNone a) := by
  cases checked with
  | none => exact around (.cast loc type none) h (Nat.zero_add _).symm fun _ =>
      ⟨(Bool.true_and _).symm, rfl, (Nat.zero_add _).symm⟩
  | some path => exact around (.cast loc type (some path)) h rfl fun _ => ⟨rfl, rfl, rfl⟩

theorem enumParam {ctor : String} {slot : UInt32} (h : Audited x value a) :
    Audited x (.enumParam loc type ctor slot value)
      (.around (.enumParam loc type value.source ctor slot) 0 true a) :=
  around (fun v => .enumParam loc type v ctor slot) h (Nat.zero_add _).symm fun _ =>
    ⟨(Bool.true_and _).symm, rfl, (Nat.zero_add _).symm⟩

theorem enumIndex (h : Audited x value a) :
    Audited x (.enumIndex loc value) (.around (.enumIndex loc value.source) 0 true a) :=
  around (.enumIndex loc) h (Nat.zero_add _).symm fun _ =>
    ⟨(Bool.true_and _).symm, rfl, (Nat.zero_add _).symm⟩

theorem takes_listed (ls : List Lowering) (own : Nat) (f : List Expr → Expr)
    (h : List.Forall₂ (Audited x) ls as)
    (hf : ∀ values, values.length = ls.length → (f values).isPure = false ∧
      (f values).isStable = false ∧ (f values).occurrences x = own + occurrencesList x values) :
    Takes x (do
        let (stmts, values) ← operands (ls.map Lowering.value)
        return ⟨stmts, f values⟩)
      ⟨anyEmits (as.map Account.value), false, false, own + leftInAll (as.map Account.value)⟩
      (own + occurrencesList x (ls.map Lowering.source)) (Account.takenAll as) := by
  refine (yields_operands h).bind fun ⟨stmts, values⟩ hr => yields_pure ?_
  obtain ⟨hemits, hlen, hleft, hb⟩ := hr
  obtain ⟨hpure, hstable, hocc⟩ := hf values hlen
  refine ⟨⟨hemits, hpure, hstable, ?_⟩, ?_⟩
  · rw [hocc, hleft]
  · grind

theorem occurrencesFields_map (name : α → String) (value : α → Expr) (fields : List α) :
    occurrencesFields x (fields.map fun f => ⟨name f, value f⟩) =
      occurrencesList x (fields.map value) := by
  induction fields with
  | nil => rfl
  | cons f rest ih => simp only [map_cons, occurrencesFields, occurrencesList, ih]

theorem occurrencesFields_zipWith (name : α → String) : ∀ (fields : List α)
    (values : List Expr), values.length = fields.length →
      occurrencesFields x (fields.zipWith (fun f v => ⟨name f, v⟩) values) =
        occurrencesList x values
  | [], [], _ => rfl
  | f :: fields, v :: values, h => by
    have hrest := occurrencesFields_zipWith name fields values (Nat.succ.inj h)
    simp only [zipWith_cons_cons, occurrencesFields, occurrencesList, hrest]

theorem object {fields : List (FieldInit Lowering)}
    (h : List.Forall₂ (Audited x) (fields.map FieldInit.value) as) :
    Audited x (.object loc type fields) (.listed
      (.object loc type (fields.map fun f => ⟨f.name, f.value.source⟩)) (x.hit .object loc) as) := by
  have heq : (fields.map fun f => f.value.value) =
      (fields.map FieldInit.value).map Lowering.value := by
    rw [map_map]
    rfl
  have hocc : (Expr.object loc type (fields.map fun f => ⟨f.name, f.value.source⟩)).occurrences x =
      x.hit .object loc + occurrencesList x ((fields.map FieldInit.value).map Lowering.source) := by
    rw [occurrences, occurrencesFields_map, map_map]
    rfl
  unfold Lowering.object
  rw [heq]
  refine ofValue ?_
  rw [hocc]
  refine takes_listed _ _ (fun values => .object loc type
    (fields.zipWith (fun f v => ⟨f.name, v⟩) values)) h fun values hlen => ⟨rfl, rfl, ?_⟩
  rw [length_map] at hlen
  rw [occurrences, occurrencesFields_zipWith FieldInit.name fields values hlen]

theorem array {elements : List Lowering} (h : List.Forall₂ (Audited x) elements as) :
    Audited x (.array loc type elements)
      (.listed (.array loc type (elements.map Lowering.source)) (x.hit .array loc) as) :=
  ofValue (takes_listed _ _ (.array loc type) h fun _ _ => ⟨rfl, rfl, rfl⟩)

theorem new {cls : TypePath} {ctorType : Ty} (h : List.Forall₂ (Audited x) args as) :
    Audited x (.new loc type cls ctorType args)
      (.listed (.new loc type cls ctorType (args.map Lowering.source)) (x.hit .new loc) as) :=
  ofValue (takes_listed _ _ (.new loc type cls ctorType) h fun _ _ => ⟨rfl, rfl, rfl⟩)

theorem occurrences_headD {values : List Expr} {n : Nat} (h : values.length = n + 1) :
    (values.headD .omitted).occurrences x + occurrencesList x values.tail =
      occurrencesList x values := by
  cases values with
  | nil => exact nomatch h
  | cons => rfl

/-- A member that is called: only its receiver is taken. -/
theorem callMember {memberLoc : Loc} {memberType : Ty} {a : Option Account}
    (hr : Option.Rel (Audited x) receiver a) (ha : List.Forall₂ (Audited x) args as) :
    Audited x (.callMember loc type memberLoc memberType ref receiver args)
      (.listed (.call loc type (.field memberLoc memberType ref (receiver.map Lowering.source))
        (args.map Lowering.source)) (x.hit .call loc) (a.toList ++ as)) := by
  unfold Lowering.callMember
  refine ofValue ?_
  cases hr with
  | none =>
    have hocc : (Expr.call loc type (.field memberLoc memberType ref none)
        (args.map Lowering.source)).occurrences x =
          x.hit .call loc + occurrencesList x (args.map Lowering.source) := by
      simp [occurrences, occurrencesOption]
    rw [Option.map_none, hocc]
    exact takes_listed _ _ (.call loc type (.field memberLoc memberType ref none)) ha fun _ _ =>
      ⟨rfl, rfl, by simp [occurrences, occurrencesOption]⟩
  | @some r a hr =>
    refine takes_listed (r :: args) _ (fun values => .call loc type
      (.field memberLoc memberType ref (some (values.headD .omitted))) values.tail)
      (.cons hr ha) fun values hlen => ⟨rfl, rfl, ?_⟩
    rw [← occurrences_headD (n := args.length) hlen]
    rfl

theorem call {callee : Lowering} (hc : Audited x callee (account x callee.source))
    (ha : List.Forall₂ (Audited x) args as) :
    Audited x (.call loc type callee args) (.listed (.call loc type callee.source
      (args.map Lowering.source)) (x.hit .call loc) (account x callee.source :: as)) := by
  -- a name or a constant as callee is no operand, and would leave nothing as one
  have hnamed (e : Expr) (hleaf : account x e = .leaf e) (hocc : e.occurrences x = 0) : Takes x (do
          let (stmts, values) ← operands (args.map Lowering.value)
          return ⟨stmts, .call loc type e values⟩)
        ⟨anyEmits ((account x e :: as).map Account.value), false, false,
          x.hit .call loc + leftInAll ((account x e :: as).map Account.value)⟩
        ((Expr.call loc type e (args.map Lowering.source)).occurrences x)
        (Account.takenAll (account x e :: as)) := by
    have hargs := takes_listed args (x.hit .call loc) (.call loc type e) ha
      fun values _ => ⟨rfl, rfl, by simp [occurrences, hocc]⟩
    have hleft (moved : Bool) : (Residue.spill moved (Account.leaf e).value).left = 0 := by
      cases moved <;> rfl
    rw [hleaf, map_cons, anyEmits, leftInAll, hleft, Nat.zero_add, Account.takenAll]
    have hzero : (Account.leaf e).balance .taken = 0 := rfl
    rw [hzero, zero_add, occurrences, hocc, Nat.zero_add]
    exact hargs
  unfold Lowering.call
  refine ofValue ?_
  split
  · rename_i hsource
    rw [hsource]
    exact hnamed _ rfl rfl
  · rename_i hsource
    rw [hsource]
    exact hnamed _ rfl rfl
  · refine takes_listed (callee :: args) _ (fun values => .call loc type (values.headD .omitted)
      values.tail) (.cons hc ha) fun values hlen => ⟨rfl, rfl, ?_⟩
    rw [← occurrences_headD (n := args.length) hlen]
    rfl

theorem function {params : List (Param Expr)} {result : Ty} {body : Option Lowering}
    {a : Option Account} (h : Option.Rel (Audited x) body a) :
    Audited x (.function loc type params result body)
      (.ofValue (.function loc type params result (body.map Lowering.source)) .plain 0) := by
  refine ofValue ?_
  cases h with
  | none => exact yields_pure ⟨⟨rfl, rfl, rfl, rfl⟩, rfl⟩
  | some hb => exact (hb.body none).bind fun _ _ => yields_pure ⟨⟨rfl, rfl, rfl, rfl⟩, rfl⟩

/-! ## Operators -/

section

variable (hl : Audited x lhs a) (hr : Audited x rhs b)
include hl hr

/-- The statements of an assignment, and its place. -/
theorem yields_assignment : Yields (assignment loc type op lhs rhs) fun h =>
      Leaves x (Account.assignment loc type op a b).value h ∧
      Balanced (occurrencesList x h.stmts) (lhs.source.occurrences x + rhs.source.occurrences x)
        ((Account.assignment loc type op a b).balance .dropped) ∧
      Balanced (occurrencesList x h.stmts + h.value.occurrences x)
        (lhs.source.occurrences x + rhs.source.occurrences x)
        ((Account.assignment loc type op a b).balance .taken) := by
  unfold assignment Account.assignment
  rw [← hr.source]
  -- A block stores into the place at each of its ends, everything else stores once.
  cases hcase : (decide (op = .assign) && rhs.source.bare.isBlockLike) with
  | true =>
    refine (hl.target .unstable).bind fun y hy => (hr.stmt (some y.value)).bind fun stmts hs => ?_
    obtain ⟨hy, hyb⟩ := hy
    obtain ⟨hs, hsb⟩ := hs
    have hleft := hy.left
    refine yields_pure ⟨⟨?_, hy.pure, hy.stable, hy.left⟩, ?_, ?_⟩
    · exact (isEmpty_append ..).trans ((congrArg₂ and hy.emits hs).trans (Bool.not_or _ _).symm)
    · have hcopies := ofCopies_balanced b.ends (a.target .unstable).left
      grind
    · have hcopies := ofCopies_balanced (b.ends + 1) (a.target .unstable).left
      grind
  | false =>
    refine (hl.target _).bind fun y hy => hr.value.bind fun z hz => ?_
    obtain ⟨hy, hyb⟩ := hy
    have hleft := hy.left
    refine yields_pure ⟨⟨by simp [Account.ofValue], hy.pure, hy.stable, hy.left⟩, ?_, ?_⟩
    · have hcopies := ofCopies_balanced 1 (a.target (assignSpill op rhs.source)).left
      grind
    · have hcopies := ofCopies_balanced (1 + 1) (a.target (assignSpill op rhs.source)).left
      grind

/-- The place is written by each end of the right side. -/
theorem assignment (hop : op.isAssignment = true) :
    Audited x (.binary loc type op lhs rhs) (.assignment loc type op a b) := by
  have hrun : Yields (Lowering.assignment loc type op lhs rhs) _ := yields_assignment hl hr
  have hvalue : Lowering.binaryValue loc type op lhs rhs =
      Lowering.assignment loc type op lhs rhs := by
    match op, hop with
    | .assign, _ => rfl
    | .compound _, _ => rfl
  have htaken : Takes x (Lowering.binaryValue loc type op lhs rhs)
      (Account.assignment loc type op a b).value
      (lhs.source.occurrences x + rhs.source.occurrences x)
      ((Account.assignment loc type op a b).balance .taken) := by
    rw [hvalue]
    exact hrun.mono fun _ h => ⟨h.1, h.2.2⟩
  have hstmt (assignee : Option Expr) : Puts x (Lowering.assignStmt loc type op lhs rhs assignee)
      ((Account.assignment loc type op a b).emits assignee.isSome)
      (lhs.source.occurrences x + rhs.source.occurrences x + 1 * occurrencesOption x assignee)
      ((Account.assignment loc type op a b).balance (.ofStmt assignee.isSome)) := by
    refine hrun.bind fun y hy => ?_
    obtain ⟨hy, hdropped, htaken⟩ := hy
    cases assignee with
    | none => exact yields_pure ⟨hy.emits, hdropped⟩
    | some =>
      refine yields_pure ⟨by simp [Account.assignment], ?_⟩
      simp only [Balanced, occurrencesList_append, occurrencesList, occurrencesOption, mkAssign,
        mkBinary, occurrences] at htaken ⊢
      change _ + ((Account.assignment loc type op a b).balance .taken).lost =
        _ + ((Account.assignment loc type op a b).balance .taken).clones
      omega
  unfold Lowering.binary
  rw [if_pos hop]
  refine ⟨?_, htaken, fun _ => htaken, hstmt, fun assignee => (hstmt assignee).mono fun _ hs => hs.2⟩
  exact congrArg₂ (Expr.binary loc type op) hl.source hr.source

/-- The left side goes into a temporary, and the right side into a branch. -/
theorem takes_branching (type : Hoisted → Ty)
    (cond : Var → Expr) (hcond : ∀ t, (cond t).occurrences x = 0) :
    Takes x (do
        let h ← lhs.value
        let t ← freshTemp (type h)
        let stmts ← scope (some rhs) (some (.local loc t))
        return ⟨h.stmts ++ [.varDecl loc t (some h.value), .ite loc .void (cond t) (some stmts) none],
          .local loc t⟩) .temp (lhs.source.occurrences x + rhs.source.occurrences x)
      (a.balance .taken + b.balance .stored) := by
  refine hl.value.bind fun y hy => (yields_freshTemp fun t ht => ht).bind fun t ht => ?_
  refine (yields_scope (.some hr) (some (.local loc t))).bind fun branch hb => ?_
  refine yields_pure ⟨leaves_temp ht (by simp), ?_⟩
  grind

end

theorem operation (hl : Audited x lhs a) (hr : Audited x rhs b) (hop : op.isMutating = false) :
    Audited x (.ofValue (.binary loc type op lhs.source rhs.source) (operation loc type op lhs rhs))
      (.operation (.binary loc type op lhs.source rhs.source) a b) := by
  refine ofValue ((yields_operandPair hl hr).bind fun ⟨stmts, v, w⟩ h => ?_)
  obtain ⟨hv, hpure, _, hleft, hb⟩ := h
  refine yields_pure ⟨⟨hv.emits, ?_, rfl, congrArg₂ (· + ·) hv.left hleft⟩, ?_⟩
  · have hvpure := hv.pure
    simp only [isPure, hop, hvpure, hpure]
    rfl
  · grind

/-- A right side without statements is taken as it is. -/
theorem takes_inOrder (hl : Audited x lhs a) (hr : Audited x rhs b) (hp : Predicted rhs)
    (hn : rhs.source.hoists = false) (hop : op.isMutating = false) :
    Takes x (do
        let h ← lhs.value
        let r ← rhs.value
        return ⟨h.stmts ++ r.stmts, .binary loc type op h.value r.value⟩)
      (Account.operation (.binary loc type op lhs.source rhs.source) a b).value
      (lhs.source.occurrences x + rhs.source.occurrences x)
      (a.balance .taken + b.balance .taken) := by
  have hquiet : Yields rhs.value fun z => (Leaves x b.value z ∧ _) ∧ z.stmts = [] :=
    Yields.and_gives hr.value fun s => (hp.value s).mono fun _ _ hq => (hq hn).stmts
  refine hl.value.bind fun y hy => hquiet.bind fun z hz => ?_
  obtain ⟨hy, hyb⟩ := hy
  obtain ⟨⟨hz, hzb⟩, hnone⟩ := hz
  have hbefore : a.value.before b.value = a.value := by
    unfold before
    rw [(hz.quiet (isEmpty_iff.2 hnone)).1, Bool.or_false]
    rfl
  unfold Account.operation
  rw [hbefore, hnone, append_nil]
  refine yields_pure ⟨⟨hy.emits, ?_, rfl, congrArg₂ (· + ·) hy.left hz.left⟩, ?_⟩
  · simp only [isPure, hop, hy.pure, hz.pure]
    rfl
  · rw [hnone] at hzb
    grind

/-- An operator that may skip its right side. -/
theorem shortCircuit (hl : Audited x lhs a) (hr : Audited x rhs b) (hp : Predicted rhs)
    (hop : op.isMutating = false) :
    Audited x (.ofValue (.binary loc type op lhs.source rhs.source)
        (shortCircuit loc type op lhs rhs))
      (if rhs.source.hoists then .branching (.binary loc type op lhs.source rhs.source) a b
        else .operation (.binary loc type op lhs.source rhs.source) a b) := by
  unfold Lowering.shortCircuit
  by_cases hn : rhs.source.hoists = true
  · rw [if_pos hn]
    simp only [if_pos hn]
    refine ofValue (takes_branching hl hr (fun _ => .bool) (fun t => if op = .or then
      .mkUnary loc .not false (.local loc t) else .local loc t) fun t => ?_)
    split <;> rfl
  · rw [if_neg hn]
    simp only [if_neg hn]
    exact ofValue (takes_inOrder hl hr hp (Bool.eq_false_iff.2 hn) hop)

theorem binary (hl : Audited x lhs a) (hr : Audited x rhs b) (hp : Predicted rhs) :
    Audited x (.binary loc type op lhs rhs) (.binary loc type op a b) := by
  unfold Account.binary
  rw [← hl.source, ← hr.source]
  cases op with
  | assign => exact assignment hl hr rfl
  | compound => exact assignment hl hr rfl
  | nullCoalesce =>
    exact ofValue (takes_branching hl hr (fun h => if type.isUntyped then h.value.type else type)
      (fun t => .mkBinary loc .eq (.local loc t) (.nullLit loc)) fun t => rfl)
  | and => exact shortCircuit hl hr hp rfl
  | or => exact shortCircuit hl hr hp rfl
  | _ => exact operation hl hr rfl

/-- A step is an assignment of one more or one less. -/
theorem yields_step {op : UnaryOp} (h : Audited x operand a) : Yields (step loc op operand) fun y =>
    Leaves x { a.target .impure with emits := true } y ∧
      Balanced (occurrencesList x y.stmts) (operand.source.occurrences x) (a.balance .placed) ∧
      Balanced (occurrencesList x y.stmts + y.value.occurrences x) (operand.source.occurrences x)
        (a.balance .placed + .ofCopies 2 (a.target .impure).left) := by
  refine (h.target .impure).bind fun y hy => ?_
  obtain ⟨hy, hb⟩ := hy
  have hleft := hy.left
  have hcopies := ofCopies_balanced 2 (a.target .impure).left
  refine yields_pure ⟨⟨by simp, hy.pure, hy.stable, hy.left⟩, ?_, ?_⟩
  · simp only [Balanced, occurrencesList_append, occurrencesList, occurrences, intLit] at hb ⊢
    omega
  · simp only [Balanced, occurrencesList_append, occurrencesList, occurrences, intLit,
      lost_add, clones_add] at hb ⊢
    omega

/-- The old value is kept in a temporary. -/
theorem takes_stepAfter {op : UnaryOp} (h : Audited x operand a) :
    Takes x (stepAfter loc type op operand) .temp (operand.source.occurrences x)
      (a.balance .placed + .ofCopies 2 (a.target .impure).left) := by
  refine (h.target .impure).bind fun y hy => (yields_freshTemp fun t ht => ht).bind fun t ht => ?_
  obtain ⟨hy, hb⟩ := hy
  have hleft := hy.left
  have hcopies := ofCopies_balanced 2 (a.target .impure).left
  refine yields_pure ⟨leaves_temp ht (by simp), ?_⟩
  simp only [Balanced, occurrencesList_append, occurrencesList, occurrences, occurrencesOption,
    intLit, lost_add, clones_add] at hb ⊢
  omega

theorem unary {op : UnaryOp} {isPost : Bool} (h : Audited x operand a) :
    Audited x (.unary loc type op isPost operand) (.unary loc type op isPost a) := by
  unfold Account.unary
  rw [← h.source]
  by_cases hop : op.isStep = true
  · rw [if_pos hop]
    have hvalue : Takes x (unaryValue loc type op isPost operand)
        (if isPost then .temp else { a.target .impure with emits := true })
        (operand.source.occurrences x)
        (a.balance .placed + .ofCopies 2 (a.target .impure).left) := by
      unfold unaryValue
      rw [if_pos hop]
      cases isPost with
      | true => exact takes_stepAfter h
      | false => exact (yields_step h).mono fun _ hy => ⟨hy.1, hy.2.2⟩
    have hstmt (assignee : Option Expr) :
        Puts x (unaryStmt loc type op isPost operand assignee) true
          (operand.source.occurrences x + 1 * occurrencesOption x assignee)
          (if Use.ofStmt assignee.isSome = .dropped then a.balance .placed
            else a.balance .placed + .ofCopies 2 (a.target .impure).left) := by
      unfold unaryStmt
      rw [hop]
      cases assignee with
      | none => exact (yields_step h).bind fun _ hy => yields_pure ⟨hy.1.emits, hy.2.1⟩
      | some place => exact puts_storeOrDrop hvalue (some place)
    exact ⟨rfl, hvalue, fun _ => hvalue, hstmt, fun assignee => (hstmt assignee).mono fun _ hs => hs.2⟩
  · rw [if_neg hop]
    have hplain : Lowering.unary loc type op isPost operand = .ofValue
        (.unary loc type op isPost operand.source) do
          let h ← operand.value
          return ⟨h.stmts, .mkUnary loc op isPost h.value⟩ := by
      unfold Lowering.unary Lowering.unaryStmt Lowering.unaryValue
      simp only [Bool.eq_false_iff.2 hop]
      rfl
    rw [hplain]
    refine around (.mkUnary loc op isPost) h (Nat.zero_add _).symm fun _ =>
      ⟨?_, rfl, (Nat.zero_add _).symm⟩
    rw [mkUnary, isPure, Bool.eq_false_iff.2 hop]
    rfl

end Audited

end LuaBackend.Normalize
