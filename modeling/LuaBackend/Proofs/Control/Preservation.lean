import LuaBackend.Proofs.Control.Switches
import LuaBackend.Proofs.Control.Tries
import LuaBackend.Proofs.Emit.Source

/-!
# Written code does what the tree does

A tree of statements whose parts without control flow are written as code
that does what they do (`Rendered`) is itself written as code that does
what it does: the same parts run in the same order, and it ends in the
same way.
-/

namespace LuaBackend

namespace Control

open Emit Run List Code

variable {e : Expr}
variable {code : Lua.Block}

def Plain : Lua.Stmt → Prop
  | .localVar .. | .assign .. | .call .. => True
  | _ => False

def WritesPlain (act : EmitM Lua.Block) : Prop :=
  ∀ scope n code n', act scope n = .ok code n' → ∀ s ∈ code, Plain s

section Plain

variable {α : Type}

theorem writesPlain_pure (h : ∀ s ∈ code, Plain s) : WritesPlain (pure code) := by
  rintro scope n _ _ ⟨⟩
  exact h

theorem writesPlain_bind {x : EmitM α} {f : α → EmitM Lua.Block} (h : ∀ a, WritesPlain (f a)) :
    WritesPlain (x >>= f) := by
  intro scope n code n' hrun
  obtain ⟨a, n₁, -, hcode⟩ := exists_of_bind hrun
  exact h a scope n₁ code n' hcode

theorem writesPlain_singleton {x : EmitM α} {f : α → Lua.Stmt} (h : ∀ a, Plain (f a)) :
    WritesPlain (x >>= fun a => pure [f a]) :=
  writesPlain_bind fun a => writesPlain_pure fun _ hs => mem_singleton.1 hs ▸ h a

theorem writesPlain_update (op : BinaryOp) (type : Ty) (place operand : Emission) :
    WritesPlain (Emission.update op type place operand) :=
  writesPlain_bind fun _ => writesPlain_singleton fun _ => trivial

/-- A simple tree is written as plain statements. -/
theorem writesPlain_simple (h : e.isSimple = true) (last : Bool) :
    WritesPlain ((emit e).stmt last) := by
  cases e with
  | paren | annot | block | forIn | ite | loop | switch | ret | brk | cont | throw | tryCatch =>
    exact nomatch h
  | omitted => exact writesPlain_pure nofun
  | binary _ _ op =>
    cases op with
    | assign => exact writesPlain_bind fun _ => writesPlain_singleton fun _ => trivial
    | compound => exact writesPlain_update _ _ _ _
    | nullCoalesce => exact fun _ _ _ _ hrun => nomatch hrun
    | _ => exact writesPlain_singleton fun _ => trivial
  | unary _ _ op _ =>
    cases op with
    | increment | decrement => exact writesPlain_update _ _ _ _
    | _ => exact writesPlain_singleton fun _ => trivial
  | varDecl _ _ init =>
    cases init with
    | none => exact writesPlain_pure fun _ hs => mem_singleton.1 hs ▸ trivial
    | some => exact writesPlain_singleton fun _ => trivial
  | _ => exact writesPlain_singleton fun _ => trivial

theorem validAll_of_plain {r : Code.Reach} (h : ∀ s ∈ code, Plain s) : Code.ValidAll r code := by
  induction code with
  | nil => trivial
  | cons s rest ih =>
    refine ⟨?_, ih fun s hs => h s (.tail _ hs)⟩
    have hs := h s mem_cons_self
    cases s <;> trivial

end Plain

/-! ## Trees -/

variable {H : Host}

section Rendered

variable (M : TreeOracle H) (L : CodeOracle H) (scope : Emit.Scope) (takes : Expr → Nat)

def RendersValue (e : Expr) : Prop := ∀ control,
  Writes (inside scope control) (takes e) (emit e).value fun code =>
    ∀ env, Code.eval L env code = given (M.value e)

/-- The tree, without control flow, is written as code that does what it
does. -/
def RendersSimple (e : Expr) : Prop := ∀ control last,
  Writes (inside scope control) (takes e) ((emit e).stmt last) fun code =>
    ∀ n env, void (seq L n code env) = attempt thrown (M.simple e)

/-- The parts without control flow are written as code that does what they
do. What switches compare changes nothing. -/
inductive Rendered : Expr → Prop
  | simple {e : Expr} : e.isSimple = true → RendersSimple M L scope takes e → Rendered e
  | paren {loc : Loc} {type : Ty} {inner : Expr} :
    Rendered inner → Rendered (.paren loc type inner)
  | annot {loc : Loc} {type : Ty} {name : String} {inner : Expr} :
    Rendered inner → Rendered (.annot loc type name inner)
  | block {loc : Loc} {type : Ty} {exprs : List Expr} :
    (∀ e ∈ exprs, Rendered e) → Rendered (.block loc type exprs)
  | ite {loc : Loc} {type : Ty} {cond : Expr} {onTrue onFalse : Option Expr} :
    RendersValue M L scope takes cond → (∀ e ∈ onTrue, Rendered e) →
    (∀ e ∈ onFalse, Rendered e) → Rendered (.ite loc type cond onTrue onFalse)
  | loop {loc : Loc} {test : LoopTest} {cond : Expr} {body : Option Expr} :
    RendersValue M L scope takes cond → (∀ e ∈ body, Rendered e) →
    Rendered (.loop loc test cond body)
  | forIn {loc : Loc} {var : Var} {iterator : Expr} {body : Option Expr} :
    RendersValue M L scope takes iterator → (∀ e ∈ body, Rendered e) →
    Rendered (.forIn loc var iterator body)
  | switch {loc : Loc} {type : Ty} {subject : Expr} {cases : List (Case Expr)}
    {default : Option Expr} : RendersValue M L scope takes subject → Comparable M subject cases →
    (∀ c ∈ cases, ∀ e ∈ c.values, RendersValue M L scope takes e) →
    (∀ c ∈ cases, ∀ e ∈ c.body, Rendered e) → (∀ e ∈ default, Rendered e) →
    Rendered (.switch loc type subject cases default)
  | ret {loc : Loc} {value : Option Expr} :
    (∀ e ∈ value, RendersValue M L scope takes e) → Rendered (.ret loc value)
  | brk {loc : Loc} : Rendered (.brk loc)
  | cont {loc : Loc} : Rendered (.cont loc)
  | throw {loc : Loc} {value : Expr} :
    RendersValue M L scope takes value → Rendered (.throw loc value)
  | tryCatch {loc : Loc} {type : Ty} {body : Option Expr} {handlers : List (Handler Expr)} :
    (∀ e ∈ body, Rendered e) → (∀ h ∈ handlers, ∀ e ∈ h.body, Rendered e) →
    Rendered (.tryCatch loc type body handlers)

end Rendered

variable {M : TreeOracle H} {L : CodeOracle H} {scope : Emit.Scope} {takes : Expr → Nat}

theorem emitsValue_emit (h : RendersValue M L scope takes e) :
    EmitsValue M L scope takes (emit e) := by
  unfold EmitsValue
  rw [source_emit]
  exact h

theorem body_simple (h : e.isSimple = true) (followed : Bool) :
    (emit e).body followed = (emit e).stmt (!followed) := by
  cases e with
  | paren | annot | block | forIn | ite | loop | switch | ret | brk | cont | throw | tryCatch =>
    exact nomatch h
  | binary _ _ op => cases op <;> rfl
  | unary _ _ op => cases op <;> rfl
  | varDecl _ _ init => cases init <;> rfl
  | _ => rfl

theorem orElse_simple (h : e.isSimple = true) :
    (emit e).orElse = do return { otherwise := some (← indented ((emit e).stmt true)) } := by
  cases e with
  | paren | annot | block | forIn | ite | loop | switch | ret | brk | cont | throw | tryCatch =>
    exact nomatch h
  | binary _ _ op => cases op <;> rfl
  | unary _ _ op => cases op <;> rfl
  | varDecl _ _ init => cases init <;> rfl
  | _ => rfl

/-- A simple tree is written in one way wherever it stands. -/
theorem emits_simple (hs : e.isSimple = true) (h : RendersSimple M L scope takes e) :
    Emits M L scope takes (emit e) := by
  refine Emits.ofStmt (body_simple hs) (orElse_simple hs) fun control _ last => ?_
  rw [source_emit, labels_simple takes hs]
  intro n hn hk
  obtain ⟨code, n', hrun, hle, hbound, hcode⟩ := h control last n hn hk
  have hplain : ∀ s ∈ code, Plain s := writesPlain_simple hs last _ _ _ _ hrun
  refine ⟨code, n', hrun, hle, hbound, ?_⟩
  exact {
    runs := fun n env => by
      rw [hcode, exec_simple M n hs]
      exact (mapExit_attempt (encode control) .throw (M.simple e)).symm
    valid := fun r _ => validAll_of_plain hplain
    returnsLast := fun v hv => hplain _ (dropLast_subset _ hv)
    goesOn := fun _ v hv => hplain _ hv
    unlabelled := fun label hl => hplain _ hl }

theorem forall_emitOption {P : Emission → Prop} {part : Option Expr}
    (h : ∀ e ∈ part, P (emit e)) : ∀ e ∈ emitOption part, P e := by
  cases part with
  | none => exact fun _ he => nomatch he
  | some e =>
    rintro _ ⟨⟩
    exact h e rfl

theorem forall_emitList {P : Emission → Prop} {es : List Expr} (h : ∀ e ∈ es, P (emit e)) :
    ∀ e ∈ emitList es, P e := by
  rw [emitList_eq_map]
  exact forall_mem_map.2 h

/-- **Every tree whose simple parts are written rightly is written
rightly.** -/
theorem emits_emit (hdecl : Declares M L) (h : Rendered M L scope takes e) :
    Emits M L scope takes (emit e) := by
  induction h with
  | simple hs hcode => exact emits_simple hs hcode
  | paren _ ih => exact ih.paren
  | annot _ ih => exact ih.annot
  | block _ ih => exact .block (forall_emitList ih)
  | ite hc _ _ iht ihf =>
    exact .ite (emitsValue_emit hc) (forall_emitOption iht) (forall_emitOption ihf)
  | loop hc _ ih => exact .loop _ (emitsValue_emit hc) (forall_emitOption ih)
  | forIn hi _ ih => exact .forIn hdecl (emitsValue_emit hi) (forall_emitOption ih)
  | switch hs hq hv _ _ ihb ihd =>
    refine .switch (emitsValue_emit hs) ?_ ?_ ?_ (forall_emitOption ihd)
    · have hcases (cases : List (Case Expr)) : (emitCases cases).map sourceCase = cases :=
        map_source_emitCases cases
      rw [source_emit, hcases]
      exact hq
    · rw [emitCases_eq_map]
      refine forall_mem_map.2 fun c hc => forall_mem_map.2 fun e he => ?_
      exact emitsValue_emit (hv c hc e he)
    · rw [emitCases_eq_map]
      refine forall_mem_map.2 fun c hc => ?_
      exact emitOption_eq_map c.body ▸ forall_emitOption (ihb c hc)
  | ret hv => exact .ret (forall_emitOption fun e he => emitsValue_emit (hv e he))
  | brk => exact .brk _
  | cont => exact .cont _
  | throw hv => exact .throw (emitsValue_emit hv)
  | tryCatch _ _ ihb ihh =>
    refine .tryCatch hdecl (forall_emitOption ihb) ?_
    rw [emitHandlers_eq_map]
    refine forall_mem_map.2 fun c hc => ?_
    exact emitOption_eq_map c.body ▸ forall_emitOption (ihh c hc)

/-! ## Written code -/

/-- **The encoding of control flow preserves meaning.** Take a tree of
statements whose parts without control flow are written as code that does
what they do, and whose breaks and continues have somewhere to go: at the
top of a function, each of them stands in a loop. If there are labels
enough, the tree is written. Lua accepts the code, and however many
rounds loops are granted, the code runs the same parts in the same order
as the tree, to the same state, and ends in the same way; it is never
stuck. A break or continue that leaves the tree is what the loops and
protected bodies around make of it. -/
theorem written_code_preserves_control_flow (M : TreeOracle H) (L : CodeOracle H)
    (takes : Expr → Nat) (context : Context) (e : Expr) (hdecl : Declares M L)
    (he : Rendered M L context.scope takes e) (ho : Open context.scope.control e)
    (hfirst : context.nextLabel ≠ 0)
    (hlabels : context.nextLabel.toNat + labels takes e < UInt32.size) :
    ∃ code label, statements e context =
        .ok (Lua.Stmt.texts context.layout code) { context with nextLabel := label } ∧
      blockOf e context.scope context.nextLabel = .ok code label ∧
      (∀ r, Reaches context.scope.control r → Code.ValidBlock r code) ∧
      ∀ n env, block L n code env = mapExit (encode context.scope.control) (exec M n e) ∧
        Exits (block L n code env) (· ≠ .stuck) := by
  have hpos : 0 < context.nextLabel.toNat := by
    refine Nat.pos_of_ne_zero fun hzero => hfirst ?_
    exact UInt32.toNat_inj.1 hzero
  have hemits := (emits_emit hdecl he).body context.scope.control
  rw [source_emit] at hemits
  obtain ⟨code, label, hrun, -, -, hdoes⟩ := hemits ho false context.nextLabel hpos hlabels
  refine ⟨code, label, statements_of_blockOf hrun, hrun, fun r hr => hdoes.validBlock hr,
    fun n env => ?_⟩
  rw [hdoes.block]
  exact ⟨rfl, (exits_exec M n e).mapExit fun j hj => ho.encode_ne_stuck hj⟩

/-- Truth values. A state holds the values still to be read and a count of
simple statements. -/
def Host.reader : Host where
  State := List Bool × Nat
  Value := Bool
  nil := false
  bool := id
  truth := id
  same := (· == ·)
  invoke _ _ s := (.ok false, s)
  truth_bool _ := rfl

/-- An expression of unknown value reads the next one. Simple statements are
counted. -/
def Oracle.reading {E : Type} (known : E → Option Bool) (S N : Type) : Oracle Host.reader E S N where
  value e s := match known e with
    | some b => (.ok b, s)
    | none => (.ok (s.1.headD false), s.1.tail, s.2)
  simple _ s := (.ok (), s.1, s.2 + 1)
  declare _ _ s := s

def TreeOracle.reading : TreeOracle Host.reader :=
  Oracle.reading (fun | .const _ _ (.bool b) => some b | _ => none) Expr Var

def CodeOracle.reading : CodeOracle Host.reader :=
  Oracle.reading (fun _ => none) Lua.Stmt String

/-- The tree `while (c) try { try { if (d) break; f(); continue; } catch (x)
return; } catch (y) {}`: the jumps leave two protected bodies. -/
theorem written_code_preserves_jumps_out_of_tries :
    let c : Expr := .local {} ⟨1, "c", .bool⟩
    let d : Expr := .local {} ⟨2, "d", .bool⟩
    let run : Expr := .call {} .void (.local {} ⟨3, "f", .dynamic⟩) []
    let inner : Expr := .tryCatch {} .void
      (some (.block {} .void [.ite {} .void d (some (.brk {})) none, run, .cont {}]))
      [⟨⟨4, "x", .dynamic⟩, some (.ret {} none)⟩]
    let tree : Expr := .loop {} .before c
      (some (.tryCatch {} .void (some inner) [⟨⟨5, "y", .dynamic⟩, none⟩]))
    let M := TreeOracle.reading
    let L := CodeOracle.reading
    Declares M L ∧ Rendered M L {} (fun _ => 0) tree ∧ Open [] tree ∧
      ∃ code label, statements tree {} = .ok (Lua.Stmt.texts {} code) { nextLabel := label } ∧
        blockOf tree {} 1 = .ok code label ∧ (∀ r, Reaches [] r → Code.ValidBlock r code) ∧
        ∀ n env, block L n code env = mapExit (encode []) (exec M n tree) ∧
          Exits (block L n code env) (· ≠ .stuck) := by
  intro c d run inner tree M L
  have hdecl : Declares M L := fun _ _ => rfl
  have hc : RendersValue M L {} (fun _ => 0) c := fun _ => writes_pure fun _ => rfl
  have hd : RendersValue M L {} (fun _ => 0) d := fun _ => writes_pure fun _ => rfl
  have hrun : RendersSimple M L {} (fun _ => 0) run := fun _ _ =>
    writes_of_eq (fun _ => rfl) fun _ _ => rfl
  have hinner : Rendered M L {} (fun _ => 0) inner := by
    refine .tryCatch (fun e he => ?_) ?_
    · cases he
      refine .block (forall_mem_cons.2 ⟨?_, forall_mem_cons.2 ⟨.simple rfl hrun, ?_⟩⟩)
      · exact .ite hd (fun e he => by cases he; exact .brk) (fun e he => nomatch he)
      · exact forall_mem_singleton.2 .cont
    · exact forall_mem_singleton.2 fun e he => by cases he; exact .ret fun e he => nomatch he
  have htree : Rendered M L {} (fun _ => 0) tree := by
    refine .loop hc fun e he => ?_
    cases he
    refine .tryCatch (fun e he => by cases he; exact hinner) ?_
    exact forall_mem_singleton.2 fun e he => nomatch he
  have hopen : Open [] tree := ⟨nofun, nofun⟩
  exact ⟨hdecl, htree, hopen, written_code_preserves_control_flow M L (fun _ => 0) {} tree hdecl
    htree hopen (by decide) (by decide)⟩

/-- The tree `switch (f()) { case false: a(); case true: b(); }`: the
subject is evaluated for each comparison. If it gives `true` and then
`false`, the tree runs `b()`, and the code runs nothing. -/
theorem effectful_subject_evaluated_again :
    let call (name : String) : Expr := .call {} .bool (.local {} ⟨1, name, .dynamic⟩) []
    let cases : List (Case Expr) :=
      [⟨[.boolLit {} false], some (call "a")⟩, ⟨[.boolLit {} true], some (call "b")⟩]
    let tree : Expr := .switch {} .void (call "f") cases none
    let M := TreeOracle.reading
    let L := CodeOracle.reading
    tree.InNormalForm ∧ Open [] tree ∧ Declares M L ∧ RendersValue M L {} (fun _ => 0) (call "f") ∧
      (∀ c ∈ cases, (∀ e ∈ c.values, RendersValue M L {} (fun _ => 0) e ∧ Still M e) ∧
        ∀ e ∈ c.body, Rendered M L {} (fun _ => 0) e) ∧
      exec M 1 tree ([true, false], 0) = some (.ok (), [false], 1) ∧
      ∃ code, blockOf tree {} 1 = .ok code 1 ∧
        block L 1 code {} ([true, false], 0) = some (.ok (), [], 0) := by
  intro call cases tree M L
  have hvalue (name : String) : RendersValue M L {} (fun _ => 0) (call name) := fun _ =>
    writes_of_eq (fun _ => rfl) fun _ => rfl
  have hconst (b : Bool) : RendersValue M L {} (fun _ => 0) (.boolLit {} b) ∧
      Still M (.boolLit {} b) := ⟨fun _ => writes_pure fun _ => rfl, fun _ => rfl⟩
  have hsimple (name : String) : Rendered M L {} (fun _ => 0) (call name) :=
    .simple rfl fun _ _ => writes_of_eq (fun _ => rfl) fun _ _ => rfl
  refine ⟨rfl, ⟨nofun, nofun⟩, fun _ _ => rfl, hvalue "f", ?_, rfl, _, rfl, rfl⟩
  refine forall_mem_cons.2 ⟨⟨?_, ?_⟩, forall_mem_singleton.2 ⟨?_, ?_⟩⟩
  · exact forall_mem_singleton.2 (hconst false)
  · exact fun e he => by cases he; exact hsimple "a"
  · exact forall_mem_singleton.2 (hconst true)
  · exact fun e he => by cases he; exact hsimple "b"

end Control

end LuaBackend
