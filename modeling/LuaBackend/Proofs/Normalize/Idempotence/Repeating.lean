import LuaBackend.Proofs.Normalize.Idempotence.Fixed
import LuaBackend.Proofs.Tree.MapChildren

/-!
# Normalization is idempotent

What lowering leaves is left alone: its statements stay and its values are
fixed, so that normalizing again gives the same tree and takes no
temporary. A place that is assigned to is read again where the value of
the assignment is wanted; `Assignable` asks that it can be.
-/

namespace LuaBackend.Normalize.Idempotence

open Expr List

variable {loc : Loc} {type : Ty} {ref : MemberRef} {v w : Expr}
variable {how : Spill} {result : Ty}

/-- It can be assigned to and read again: it is no bound or forwarded
method, and no assignment, whose place may have parts to move. -/
def Assignable (e : Expr) : Prop :=
  match e.bare with
  | .field _ _ ref _ => ref.isForwarded = false ∧ ref.access ≠ .closure
  | .binary _ _ op _ _ => op.isAssignment = false
  | _ => True

instance decidableAssignable (e : Expr) : Decidable (Assignable e) := by
  unfold Assignable
  split <;> infer_instance

def PlainVoid (type : Ty) : Prop :=
  type.unwrap.isKind .function = true → type.unwrap.result.isKind .void = true →
    type.unwrap.result = .void

instance decidableEqVoid : (type : Ty) → Decidable (type = .void)
  | .untyped => isFalse nofun
  | .of kind path args optional =>
    decidable_of_iff (kind = .void ∧ path = {} ∧ args = [] ∧ optional = []) (by
      simp [Ty.void, Ty.simple])

instance decidablePlainVoid (type : Ty) : Decidable (PlainVoid type) :=
  inferInstanceAs (Decidable (_ → _ → _ = _))

/-- An enum constructor has no receiver, a void result of a forwarded method
is plain, and what is assigned to can be read again. -/
def Repeatable : Expr → Prop
  | .field _ type ref receiver =>
    (ref.access = .enumCtor → receiver = none) ∧ (ref.isForwarded = true → PlainVoid type)
  | .binary _ _ op lhs _ => op.isAssignment = true → Assignable lhs
  | .unary _ _ op _ operand => op.isStep = true → Assignable operand
  | _ => True

instance decidableRepeatable (e : Expr) : Decidable (Repeatable e) := by
  unfold Repeatable
  split <;> infer_instance

/-! ## What a run leaves -/

/-- A place that a run has left, with its parts moved in this way. -/
structure Taken (how : Spill) (p : Expr) : Prop extends Whole p where
  moved : how ≠ .none → ∀ q ∈ p.placeParts, q.isPure = true

theorem taken_of_whole (h : Whole v) (hparts : v.placeParts = []) : Taken how v := by
  refine ⟨h, fun _ => ?_⟩
  rw [hparts]
  exact nofun

/-- A stable value cannot be observed either. -/
theorem Fixed.isPure (h : Fixed v) (hv : v.isPure = true ∨ v.isStable = true) : v.isPure = true :=
  hv.elim id h.firm

theorem taken_index (hv : Fixed v) (hw : Fixed w)
    (h : how ≠ .none → ∀ q ∈ [v, w], q.isPure = true ∨ q.isStable = true) :
    Taken how (.index loc type v w) := by
  refine ⟨whole_index hv hw, fun hhow q hq => ?_⟩
  have hmoved := h hhow q hq
  rcases mem_cons.1 hq with rfl | hq
  · exact hv.isPure hmoved
  · rw [mem_singleton.1 hq] at hmoved ⊢
    exact hw.isPure hmoved

section Members

variable {given receiver : Option Expr} (hsource : Throughout Repeatable (.field loc type ref given))
  (hsome : receiver.isSome = given.isSome)

include hsource hsome

/-- A constructor of an enum has no receiver. -/
theorem ne_enumCtor (hr : receiver = some v) : ref.access ≠ .enumCtor := by
  intro henum
  rw [hr, hsource.node.1 henum] at hsome
  exact nomatch hsome

theorem whole_member (hf : ref.isForwarded = false)
    (h : ∀ r ∈ receiver, Fixed r ∧ (ref.access = .closure → r.isPure = true)) :
    Whole (.field loc type ref receiver) := by
  cases receiver with
  | none => exact whole_field_none hf
  | some r => exact whole_field (h r rfl).1 hf (h r rfl).2 (ne_enumCtor hsource hsome rfl)

/-- A place keeps the receiver that was moved for it. -/
theorem taken_member (ha : Assignable (.field loc type ref given))
    (h : ∀ r ∈ receiver, Fixed r ∧ (how ≠ .none → r.isPure = true ∨ r.isStable = true)) :
    Taken how (.field loc type ref receiver) := by
  refine ⟨whole_member hsource hsome ha.1 fun r hr => ⟨(h r hr).1, fun hc => absurd hc ha.2⟩,
    fun hhow q hq => ?_⟩
  obtain ⟨hfixed, hmoved⟩ := h q (Option.mem_toList.1 hq)
  exact hfixed.isPure (hmoved hhow)

end Members

/-- The function around a forwarded method is left alone. -/
theorem whole_forwarder {receiver : Option Expr} {params : List Var} (hvoid : PlainVoid type)
    (hresult : result = if type.unwrap.isKind .function then type.unwrap.result else .dynamic)
    (hr : ∀ r ∈ receiver, Fixed r) :
    let call := Expr.call loc result (.field loc type ref receiver) (params.map (.local loc ·))
    Whole (.mkFunction loc params result (some (.mkBlock loc
      [if result.isKind .void then call else .ret loc (some call)]))) := by
  intro call
  have hcall : Whole call := by
    refine whole_callMember (fun r h => ⟨(hr r h).value, (hr r h).quiet⟩) ?_
    exact forall_mem_map.2 fun _ _ => whole_local.toFixed
  refine whole_function (forall_mem_map.2 fun _ _ => rfl) (forall_mem_some ?_)
  split
  · rename_i hkind
    have hplain : result = .void := by
      rw [hresult] at hkind ⊢
      split at hkind
      · rename_i hfun
        rw [if_pos hfun]
        exact hvoid hfun hkind
      · exact nomatch hkind
    subst hplain
    exact inert_statements (forall_mem_singleton.2 (hcall.stmt rfl))
  · exact inert_statements (forall_mem_singleton.2 (stays_ret hcall.toFixed))

theorem whole_literal {params : List (Param Expr)} {body : Option Expr} (h : ∀ b ∈ body, Inert b)
    : Whole (.function loc type
      (params.map fun p => { p with default := p.default.map retyped }) result body) := by
  refine whole_function (forall_mem_map.2 fun p _ => ?_) h
  rw [Option.map_map]
  exact congrArg (Option.map · p.default) (funext retyped_retyped)

def repeated : Regimen where
  supply _ := True
  word _ := True
  source := Throughout Repeatable
  types := .any _
  assignable := Assignable
  value := Fixed
  whole := Whole
  place := Taken
  stmt := Stays
  scope := Inert
  supply_next _ _ := ⟨trivial, trivial⟩
  source_part h hc := h.child hc
  source_word _ _ := trivial
  assignable_binary h hop := h.node hop
  assignable_unary h hop := h.node hop
  assignable_local := trivial
  assignable_wrapped {e _} h hc := by
    cases e with
    | paren | annot =>
      cases mem_singleton.1 hc
      exact h
    | _ => cases hc
  value_of_whole h := h.toFixed
  whole_of_place h := h.toWhole
  place_of_place hhow h := ⟨h.toWhole, fun _ => h.moved hhow⟩
  place_of_whole _ _ := taken_of_whole
  place_assigned ha hop _ := Bool.noConfusion (hop.symm.trans ha)
  stmt_of_whole h := h.stmt
  whole_omitted := whole_omitted
  whole_const := whole_const
  whole_typeRef _ := whole_typeRef
  whole_ident _ := whole_ident
  place_local _ := taken_of_whole whole_local rfl
  whole_field := whole_member
  place_field hsource ha hsome := taken_member hsource hsome ha
  whole_forwarder hsource hf hresult hr _ := whole_forwarder (hsource.node.2 hf) hresult hr
  place_index := taken_index
  value_paren := fixed_paren
  value_annot := fixed_annot
  whole_cast _ := whole_cast
  whole_enumParam := whole_enumParam
  whole_enumIndex := whole_enumIndex
  whole_object := whole_object
  whole_array := whole_array
  whole_new _ := whole_new
  whole_callMember _ hr := whole_callMember fun r h => ⟨(hr r h).value, (hr r h).quiet⟩
  whole_call := whole_call
  whole_function _ := whole_literal
  whole_binary hop _ hv hw := whole_binary hv hw hop
  whole_unary hop hv := whole_unary hv hop
  stmt_assign {how _ _ op _ v} hop _ hp hv h := by
    refine stays_assign hop hp.toWhole hv fun hask => hp.moved fun hnone => ?_
    obtain ⟨rfl, hpure⟩ := h hnone
    exact hask.elim (fun hne => hne rfl) fun himpure =>
      Bool.noConfusion (himpure.symm.trans hpure)
  stmt_varDecl {_ _ init} _ h := by
    cases init with
    | none => exact stays_varDecl_none
    | some i => exact stays_varDecl (h i rfl)
  stmt_ret {_ v} h := by
    cases v with
    | none => exact stays_ret_none
    | some v => exact stays_ret (h v rfl)
  stmt_throw := stays_throw
  stmt_brk := stays_brk
  stmt_cont := stays_cont
  scope_block := inert_statements
  stmt_block := stays_block
  stmt_ite := stays_ite
  stmt_forIn _ := stays_forIn
  stmt_loop := stays_loop
  stmt_switch hv hpure hc := stays_switch hv hpure fun c h => ⟨(hc c h).1, (hc c h).2⟩
  stmt_tryCatch hb hh := stays_tryCatch hb fun h hmem => (hh h hmem).2

/-- Statements that stay are what their block is normalized to. -/
theorem normalize_statements {stmts : List Expr} (h : StaysAll stmts) (s : TempSupply) :
    normalize (.statements loc stmts) none s = .ok (.statements loc stmts) s := by
  have hrun : normalize (.statements loc stmts) none = pure (.statements loc stmts) := by
    rw [normalize, body_statements h, pure_bind]
    rfl
  rw [hrun]
  rfl

/-- **Normalization is idempotent.** Take a tree in which constructors of
enums have no receiver, and no target of an assignment or a step is a
bound method, a forwarded method or an assignment. Normalizing what it is
normalized to gives the same tree, and takes no temporary from whatever
supply. -/
theorem normalize_idempotent (e : Expr) (he : Throughout Repeatable e) (s : TempSupply) :
    Gives (normalize e none) s fun t _ => ∀ s', normalize t none s' = .ok t s' :=
  ((disciplined_lower (R := repeated) he).body none forall_mem_none s trivial).bind fun _ _ hs =>
    gives_pure fun s' => normalize_statements hs.2 s'

/-- The tree `y = (a[f()] += { x += 1; x })`: both parts of the place and
the value of the block are moved into temporaries. -/
theorem normalize_idempotent_compound :
    let a : Var := ⟨1, "a", .array .int⟩
    let x : Var := ⟨2, "x", .int⟩
    let y : Var := ⟨3, "y", .int⟩
    let place : Expr :=
      .index {} .int (.local {} a) (.call {} .int (.local {} ⟨4, "f", .dynamic⟩) [])
    let more : Expr := .block {} .int
      [.binary {} .int (.compound .add) (.local {} x) (.intLit {} 1), .local {} x]
    let tree : Expr :=
      .binary {} .int .assign (.local {} y) (.binary {} .int (.compound .add) place more)
    Throughout Repeatable tree ∧ Gives (normalize tree none) TempSupply.all fun t _ =>
      ∀ s', normalize t none s' = .ok t s' := by
  intro a x y place more tree
  have htree : Throughout Repeatable tree := by decide
  exact ⟨htree, normalize_idempotent tree htree TempSupply.all⟩

/-- An assignment to an assignment: `(a[f()] = 1) = g()` is normalized to
`a[f()] = 1; a[f()] = g()` and takes no temporary. A second run finds the
call of `f` in front of the call of `g`, and moves it into one. -/
theorem assigned_assignment_takes_temporary :
    let place : Expr := .index {} .int (.local {} ⟨1, "a", .array .int⟩)
      (.call {} .int (.local {} ⟨2, "f", .dynamic⟩) [])
    let tree : Expr := .binary {} .int .assign (.binary {} .int .assign place (.intLit {} 1))
      (.call {} .int (.local {} ⟨3, "g", .dynamic⟩) [])
    ∃ t s t' s', normalize tree none TempSupply.all = .ok t s ∧ normalize t none s = .ok t' s' ∧
      s.count = 0 ∧ s'.count = 1 :=
  ⟨_, _, _, _, rfl, rfl, rfl, rfl⟩

end LuaBackend.Normalize.Idempotence
