import LuaBackend.Proofs.Lua.Derived

/-!
# Well-formed code is a program

The lines of well-formed statements are derived from the texts of their
parts, so the text of well-formed code is a program, by induction over the
code.
-/

namespace LuaBackend.Lua

open Text List Bool

def IsStats (ts : List Lexeme) : Prop := ∀ us, IsBlock us → IsBlock (ts ++ us)

theorem IsStat.stats {ts : List Lexeme} (h : IsStat ts) : IsStats ts := fun _ => .cons h

section Lines

variable {layout : Layout} (hb : layout.Blank) {text body : String} {ts : List Lexeme}

include hb

theorem lexesAs_line (h : LexesAs endsExp text ts) : LexesAs anything (layout.line text) ts := by
  have hindent : LexesAs anything layout.indent [] := lexesAs_of_blank (run_blanks hb.indent)
  have hbreak : LexesAs anything "\n" [] := lexesAs_of_blank rfl
  have hline := (hindent.and h).before hbreak (c := '\n') rfl rfl
  rw [nil_append, append_nil] at hline
  exact hline

theorem lexesAs_wordLine (word : String) (h : isName word = true) :
    LexesAs anything (layout.line word) [.word word] :=
  lexesAs_line hb (lexesAs_word h).exp

theorem Derived.line {G : List Lexeme → Prop} (h : Derived G endsExp text) :
    Derived G anything (layout.line text) := by
  obtain ⟨ts, hts, hlex⟩ := h
  exact ⟨ts, hts, lexesAs_line hb hlex⟩

end Lines

/-! ## Simple statements -/

section Simple

variable {text text' name : String}

theorem derived_local (h : IsFreeName name) : Derived IsStat endsExp ("local " ++ name) := by
  have hword : LexesAs anything "local " [.word "local"] := lexesAs_of_blank rfl
  exact ⟨_, @IsStat.locals [name] (cons_ne_nil _ _) (forall_mem_singleton.2 h),
    (hword.and (lexesAs_word h.1)).exp⟩

theorem derived_initial (h : IsFreeName name) (hv : Derived IsExp endsExp text) :
    Derived IsStat endsExp ("local " ++ name ++ (" = " ++ text)) := by
  obtain ⟨ts, hts, hlex⟩ := hv
  have hword : LexesAs anything "local " [.word "local"] := lexesAs_of_blank rfl
  have hequals : LexesAs anything " = " [.sign "="] := lexesAs_of_blank rfl
  have hname := (hword.and (lexesAs_word h.1)).before hequals (c := ' ') rfl rfl
  refine ⟨_, @IsStat.initial [name] ts (cons_ne_nil _ _) (forall_mem_singleton.2 h) hts, ?_⟩
  rw [← String.append_assoc]
  exact hname.and hlex

theorem derived_assign (hp : Derived IsHead endsWord text) (hv : Derived IsExp endsExp text') :
    Derived IsStat endsExp (text ++ " = " ++ text') := by
  obtain ⟨ts, hts, hlex⟩ := hp
  obtain ⟨us, hus, hlex'⟩ := hv
  have hequals : LexesAs anything " = " [.sign "="] := lexesAs_of_blank rfl
  exact ⟨_, .assign hts hus, (hlex.before hequals (c := ' ') rfl rfl).and hlex'⟩

theorem Derived.stat (h : Derived IsCall endsWord text) : Derived IsStats endsExp text := by
  obtain ⟨ts, hts, hlex⟩ := h
  exact ⟨ts, (IsStat.call hts).stats, hlex.exp⟩

/-- A call that begins with a parenthesis comes after a semicolon. -/
theorem Derived.apart (h : Derived IsCall endsWord text) :
    Derived IsStats endsExp (";" ++ text) := by
  obtain ⟨ts, hts, hlex⟩ := h
  have hsign : LexesAs anything ";" [.sign ";"] :=
    lexesAs_closedSign ";" [] [';'] rfl rfl fun _ => rfl
  refine ⟨_, fun us hus => ?_, (hsign.and hlex).exp⟩
  rw [append_assoc]
  exact .cons .empty (.cons (.call hts) hus)

theorem isFreeName_labelName (label : UInt32) : IsFreeName (labelName label) := by
  have htext :
      (labelName label).toList = "_hx_continue_".toList ++ Nat.toDigits 10 label.toNat := by
    rw [labelName, String.toList_append]
    exact congrArg _ (toList_toString_nat label.toNat)
  refine ⟨?_, Bool.eq_false_iff.2 fun hmem => ?_⟩
  · have hdigits : (Nat.toDigits 10 label.toNat).all isNamePart = true :=
      all_eq_true.2 fun c hc => by
        rw [isNamePart, digits_toDigits label.toNat c hc, Bool.or_true]
    rw [isName, htext]
    exact hdigits
  · have hstart : ∀ word ∈ reserved, word.toList.head? ≠ some '_' := by decide
    refine hstart _ (contains_iff_mem.1 hmem) ?_
    rw [htext]
    rfl

theorem derived_goto (h : IsFreeName name) : Derived IsStat endsExp ("goto " ++ name) := by
  have hword : LexesAs anything "goto " [.word "goto"] := lexesAs_of_blank rfl
  exact ⟨_, .goto h, (hword.and (lexesAs_word h.1)).exp⟩

theorem derived_label (h : IsFreeName name) : Derived IsStat endsExp ("::" ++ name ++ "::") := by
  have hcolons {stop : Char → Bool} : LexesAs stop "::" [.sign "::"] :=
    lexesAs_closedSign "::" [] [':', ':'] rfl rfl fun _ => rfl
  have hname : LexesAs endsWord ("::" ++ name) _ := LexesAs.and hcolons (lexesAs_word h.1)
  exact ⟨_, .label h, hname.before hcolons (c := ':') rfl rfl⟩

theorem derived_return (h : Derived IsExp endsExp text) :
    Derived IsBlock endsExp ("return" ++ (" " ++ text)) := by
  obtain ⟨ts, hts, hlex⟩ := h
  have hword : LexesAs anything "return " [.word "return"] := lexesAs_of_blank rfl
  have htext : "return" ++ (" " ++ text) = "return " ++ text := by
    rw [← String.append_assoc]
    rfl
  rw [htext]
  exact ⟨_, .retValue hts, hword.and hlex⟩

theorem derived_scope (h : Derived IsBlock endsExp text) :
    Derived IsStat endsExp ("do " ++ text ++ " end") := by
  obtain ⟨ts, hts, hlex⟩ := h
  have hopen : LexesAs anything "do " [.word "do"] := lexesAs_of_blank rfl
  have hclose : LexesAs endsWord " end" [.word "end"] :=
    lexesAs_endWord " end" [] ['e', 'n', 'd'] rfl
  have hwhole := (hopen.and hlex).before hclose (c := ' ') rfl rfl
  exact ⟨_, .scope hts, hwhole.exp⟩

theorem derived_test (h : Derived IsExp endsExp text) :
    Derived IsStat endsExp ("if " ++ text ++ " then end") := by
  obtain ⟨ts, hts, hlex⟩ := h
  have hopen : LexesAs anything "if " [.word "if"] := lexesAs_of_blank rfl
  have hclose : LexesAs endsWord " then end" [.word "then", .word "end"] :=
    lexesAs_endWord " then end" [.word "then"] ['e', 'n', 'd'] rfl
  have hwhole := (hopen.and hlex).before hclose (c := ' ') rfl rfl
  refine ⟨_, .branches (.last hts .nil), ?_⟩
  simpa using hwhole.exp

/-- A default for an argument that is missing. -/
theorem derived_default (h : IsFreeName name) (hv : Derived IsExp endsExp text) :
    Derived IsStat endsExp
      ("if " ++ name ++ " == nil then " ++ name ++ " = " ++ text ++ " end") := by
  obtain ⟨us, hus, hassign⟩ := derived_assign (derived_name h) hv
  have hopen : LexesAs anything "if " [.word "if"] := lexesAs_of_blank rfl
  have htest : LexesAs anything " == nil then " [.sign "==", .word "nil", .word "then"] :=
    lexesAs_of_blank rfl
  have hclose : LexesAs endsWord " end" [.word "end"] :=
    lexesAs_endWord " end" [] ['e', 'n', 'd'] rfl
  have hcond := (hopen.and (lexesAs_word h.1)).before htest (c := ' ') rfl rfl
  have hwhole := (hcond.and hassign).before hclose (c := ' ') rfl rfl
  have hnil : IsExp [.word "nil"] := .literal (by decide)
  refine ⟨_, .branches (.last (.binary .eq (.head (.name h)) hnil) (.cons hus .nil)), ?_⟩
  simpa [String.append_assoc, Operator.lexeme, Operator.spelling] using hwhole.exp

end Simple

section Blocks

variable {layout : Layout} (hb : layout.Blank) {text body : String}
  (hbody : Derived IsBlock anything body)

include hb hbody

theorem derived_scopeLines :
    Derived IsStat anything (layout.line "do" ++ body ++ layout.line "end") := by
  obtain ⟨us, hus, hlex⟩ := hbody
  exact ⟨_, .scope hus,
    ((lexesAs_wordLine hb "do" rfl).and hlex).and (lexesAs_wordLine hb "end" rfl)⟩

theorem derived_while (h : Derived IsExp endsExp text) : Derived IsStat anything
    (layout.line ("while " ++ text ++ " do") ++ body ++ layout.line "end") := by
  obtain ⟨ts, hts, hlex⟩ := h
  obtain ⟨us, hus, hlexBody⟩ := hbody
  have hopen : LexesAs anything "while " [.word "while"] := lexesAs_of_blank rfl
  have hdo : LexesAs endsWord " do" [.word "do"] := lexesAs_endWord " do" [] ['d', 'o'] rfl
  have hcond := lexesAs_line hb ((hopen.and hlex).before hdo (c := ' ') rfl rfl).exp
  exact ⟨_, .loopWhile hts hus, (hcond.and hlexBody).and (lexesAs_wordLine hb "end" rfl)⟩

theorem derived_untilNot (h : Derived IsExp endsExp text) : Derived IsStat anything
    (layout.line "repeat" ++ body ++ layout.line ("until not (" ++ text ++ ")")) := by
  obtain ⟨ts, hts, hlex⟩ := h
  obtain ⟨us, hus, hlexBody⟩ := hbody
  have hopen : LexesAs anything "until not (" [.word "until", .word "not", .sign "("] :=
    lexesAs_closedSign "until not (" [.word "until", .word "not"] ['('] rfl rfl fun _ => rfl
  have hcond :=
    lexesAs_line hb ((hopen.and hlex).before lexesAs_closing (c := ')') rfl rfl).anywhere
  refine ⟨_, .loopUntil hus (.not (.head (.paren hts))), ?_⟩
  simpa using ((lexesAs_wordLine hb "repeat" rfl).and hlexBody).and hcond

/-- A protected call, with its status in a local. -/
theorem derived_protect : Derived IsStat anything
    (layout.line ("local " ++ statusName ++ ", " ++ resultName ++ " = pcall(function()") ++ body ++
      layout.line "end)") := by
  obtain ⟨us, hus, hlexBody⟩ := hbody
  have hopen : LexesAs endsExp
      ("local " ++ statusName ++ ", " ++ resultName ++ " = pcall(function()")
      [.word "local", .word statusName, .sign ",", .word resultName, .sign "=", .word "pcall",
        .sign "(", .word "function", .sign "(", .sign ")"] :=
    lexesAs_closedSign "local _hx_status, _hx_result = pcall(function()" [.word "local",
      .word statusName, .sign ",", .word resultName, .sign "=", .word "pcall", .sign "(",
      .word "function", .sign "("] [')'] rfl rfl fun _ => rfl
  have hclose : LexesAs endsExp "end)" [.word "end", .sign ")"] :=
    lexesAs_closedSign "end)" [.word "end"] [')'] rfl rfl fun _ => rfl
  have hcall := IsCall.value (.name (by decide : IsFreeName "pcall"))
    (forall_mem_singleton.2 (@IsExp.function [] us nofun hus))
  refine ⟨_, @IsStat.initial [statusName, resultName] _ (cons_ne_nil _ _) (by decide)
    (.head (.call hcall)), ?_⟩
  simpa [commas] using ((lexesAs_line hb hopen).and hlexBody).and (lexesAs_line hb hclose)

end Blocks

/-- The condition of an arm, after its first word. -/
theorem lexesAs_arm {layout : Layout} (hb : layout.Blank) {word text : String} {token : Lexeme}
    {ts : List Lexeme} (hword : LexesAs anything word [token]) (h : LexesAs endsExp text ts) :
    LexesAs anything (layout.line (word ++ text ++ " then")) ([token] ++ ts ++ [.word "then"]) := by
  have hthen : LexesAs endsWord " then" [.word "then"] :=
    lexesAs_endWord " then" [] ['t', 'h', 'e', 'n'] rfl
  exact lexesAs_line hb ((hword.and h).before hthen (c := ' ') rfl rfl).exp

/-! ## Code -/

/-- The text is derived as what the expression is. -/
structure Expr.Derivable (layout : Layout) (e : Expr) : Prop where
  exp : Derived IsExp endsExp (e.text layout)
  head : e.isHead = true → Derived IsHead endsWord (e.text layout)
  call : e.isCall = true → Derived IsCall endsWord (e.text layout)

/-- The lines are derived, those of a return as the end of a block. -/
structure Stmt.Derivable (layout : Layout) (s : Stmt) : Prop where
  stats : s.isReturn = false → Derived IsStats anything (s.text layout)
  block : s.isReturn = true → Derived IsBlock anything (s.text layout)

section Derivable

variable {layout : Layout} {e : Expr} {s : Stmt}

theorem Expr.Derivable.ofExp (hhead : e.isHead = false)
    (h : Derived IsExp endsExp (e.text layout)) : e.Derivable layout where
  exp := h
  head hh := absurd (hhead.symm.trans hh) false_ne_true
  call hc := absurd (hhead.symm.trans (Expr.isHead_of_isCall hc)) false_ne_true

theorem Expr.Derivable.ofHead (hcall : e.isCall = false)
    (h : Derived IsHead endsWord (e.text layout)) : e.Derivable layout where
  exp := h.exp
  head _ := h
  call hc := absurd (hcall.symm.trans hc) false_ne_true

theorem Expr.Derivable.ofCall (h : Derived IsCall endsWord (e.text layout)) :
    e.Derivable layout where
  exp := h.head.exp
  head _ := h.head
  call _ := h

theorem Stmt.Derivable.ofStats (hreturn : s.isReturn = false)
    (h : Derived IsStats anything (s.text layout)) : s.Derivable layout where
  stats _ := h
  block hr := absurd (hreturn.symm.trans hr) false_ne_true

theorem Stmt.Derivable.ofStat (hreturn : s.isReturn = false)
    (h : Derived IsStat anything (s.text layout)) : s.Derivable layout := by
  obtain ⟨ts, hts, hlex⟩ := h
  exact .ofStats hreturn ⟨ts, hts.stats, hlex⟩

theorem Expr.starts_isStart {S : Expr → Prop} (h : e.Formed IsFreeName S) (layout : Layout) :
    ∃ c, Starts (e.text layout) c ∧ isStart c = true := by
  obtain ⟨c, hc, hstart, -⟩ := e.starts (fun _ hn => hn.1) layout h
  exact ⟨c, hc, hstart⟩

/-- A minus sign is kept apart from one behind it. -/
theorem Expr.derived_neg (h : Derived IsExp endsExp (e.text layout))
    (hstart : ∃ c, Starts (e.text layout) c ∧ isStart c = true) :
    Derived IsExp endsExp ((Expr.neg e).text layout) := by
  obtain ⟨c, hc, -⟩ := hstart
  change Derived IsExp endsExp (if startsWith '-' (e.text layout) then "-(" ++ e.text layout ++ ")"
    else "-" ++ e.text layout)
  rw [hc.startsWith]
  split
  · have hparens := h.paren.exp.neg ⟨'(', (starts_literal "(" rfl _).append _, by decide⟩
    have hopen : "-(" = "-" ++ "(" := rfl
    rw [hopen]
    simpa only [String.append_assoc] using hparens
  · rename_i hne
    exact h.neg ⟨c, hc, by simpa using hne⟩

end Derivable

def Storable (place : Expr) : Prop := place.isHead = true

mutual

/-- Expressions, by induction on the code. -/
theorem Expr.derivable : ∀ (e : Expr) {layout : Layout}, layout.Blank →
    e.Formed IsFreeName Storable → e.Derivable layout
  | .nil, _, _, _ => .ofExp rfl (derived_literal "nil" (by decide))
  | .bool true, _, _, _ => .ofExp rfl (derived_literal "true" (by decide))
  | .bool false, _, _, _ => .ofExp rfl (derived_literal "false" (by decide))
  | .int value, _, _, _ => .ofExp rfl (derived_int value)
  | .float value, _, _, _ => .ofExp rfl (derived_float value)
  | .string value, _, _, _ => .ofExp rfl (derived_quote value)
  | .name _, _, _, h => .ofHead rfl (derived_dotted h)
  | .paren inner, _, hb, h => .ofHead rfl (Expr.derivable inner hb h).exp.paren
  | .member first name, _, hb, h =>
    .ofHead rfl (((Expr.derivable first hb h.2).head h.1).member name)
  | .key first name, _, hb, h =>
    .ofHead rfl (((Expr.derivable first hb h.2).head h.1).brackets (derived_quote name)
      ⟨'"', starts_quote name, rfl⟩)
  | .index first position, layout, hb, h =>
    .ofHead rfl (((Expr.derivable first hb h.1.2).head h.1.1).brackets
      (Expr.derivable position hb h.2).exp (Expr.starts_isStart h.2 layout))
  | .call first args, _, hb, h =>
    .ofCall (((Expr.derivable first hb h.1.2).head h.1.1).call
      fun text ht => (Expr.derivable_texts args hb h.2 text ht).1)
  | .method first _ args, _, hb, h =>
    .ofCall (((Expr.derivable first hb h.1.2).head h.1.1).method
      (fun text ht => (Expr.derivable_texts args hb h.2.2 text ht).1) h.2.1)
  | .callWithSelf first args, _, hb, h =>
    .ofCall (((Expr.derivable first hb h.1.2).head h.1.1).callWithSelf
      (fun text ht => (Expr.derivable_texts args hb h.2 text ht).1) fun text ht => by
        obtain ⟨c, hc, -⟩ := (Expr.derivable_texts args hb h.2 text ht).2
        rintro rfl
        cases hc)
  | .binary op lhs rhs, _, hb, h =>
    .ofExp rfl ((Expr.derivable lhs hb h.1).exp.binary op (Expr.derivable rhs hb h.2).exp)
  | .not inner, _, hb, h => .ofExp rfl (Expr.derivable inner hb h).exp.not
  | .neg inner, layout, hb, h => by
    have hinner : inner.Formed IsFreeName Storable := h
    exact .ofExp rfl (Expr.derived_neg (Expr.derivable inner hb hinner).exp
      (Expr.starts_isStart hinner layout))
  | .function _ [], _, _, h => .ofExp rfl (derived_emptyFunction h.1).end
  | .function _ (s :: rest), layout, hb, h =>
    .ofExp rfl (derived_function h.1 (Stmt.derivable_texts (s :: rest) hb.deeper h.2) hb.indent).end
  | .block body, layout, hb, h =>
    .ofCall (derived_block (Stmt.derivable_texts body hb.deeper h) hb.indent)
  | .object fields, _, hb, h => by
    obtain ⟨parts, hmore⟩ := Expr.derivable_fields fields hb h
    refine .ofCall (derived_object ?_ hmore)
    refine forall_mem_map.2 fun f _ => ?_
    have hentry := (derived_literal "true" (by decide)).entry f.name ⟨'t', rfl, rfl⟩
    rw [String.append_assoc] at hentry
    exact hentry
  | .array elements, layout, hb, h => by
    have htexts := Expr.derivable_texts elements hb h
    have harray := derived_array (fun text ht => (htexts text ht).1)
      (fun text ht => (htexts text ht).2) elements.length
    refine .ofCall ?_
    cases elements <;> exact harray

theorem Expr.derivable_texts : ∀ (es : List Expr) {layout : Layout}, layout.Blank →
    Expr.AllFormed IsFreeName Storable es → ∀ text ∈ Expr.texts layout es,
      Derived IsExp endsExp text ∧ ∃ c, Starts text c ∧ isStart c = true
  | [], _, _, _, _, ht => by cases ht
  | e :: rest, layout, hb, h, text, ht => by
    rcases mem_cons.1 ht with rfl | ht
    · exact ⟨(Expr.derivable e hb h.1).exp, Expr.starts_isStart h.1 layout⟩
    · exact Expr.derivable_texts rest hb h.2 text ht

theorem Expr.derivable_fields : ∀ (fields : List (FieldInit Expr)) {layout : Layout}, layout.Blank →
    Expr.FieldsFormed IsFreeName Storable fields →
      ∃ parts, MoreEntries (Expr.fieldsText layout fields) parts
  | [], _, _, _ => ⟨[], moreEntries_nil⟩
  | ⟨name, value⟩ :: rest, layout, hb, h => by
    obtain ⟨parts, hmore⟩ := Expr.derivable_fields rest hb h.2
    obtain ⟨part, hwhole⟩ := hmore.cons name (Expr.derivable value hb h.1).exp
      (Expr.starts_isStart h.1 layout)
    exact ⟨_, hwhole⟩

/-- Statements, by induction on the code. -/
theorem Stmt.derivable : ∀ (s : Stmt) {layout : Layout}, layout.Blank →
    s.Formed IsFreeName Storable → s.Derivable layout
  | .localVar name none, layout, hb, h => by
    have hline := (derived_local h.1).line hb
    rw [← String.append_empty (s := "local " ++ name)] at hline
    exact .ofStat rfl hline
  | .localVar _ (some value), _, hb, h =>
    .ofStat rfl ((derived_initial h.1 (Expr.derivable value hb h.2).exp).line hb)
  | .assign place value, _, hb, h =>
    .ofStat rfl ((derived_assign ((Expr.derivable place hb h.2.1).head h.1)
      (Expr.derivable value hb h.2.2).exp).line hb)
  | .call call, layout, hb, h => by
    -- A call may be set apart from the statement before it: then the line is two statements.
    have hcall := (Expr.derivable call hb h.2).call h.1
    refine .ofStats rfl (Derived.line hb ?_)
    split
    · exact hcall.apart
    · exact hcall.stat
  | .run call, _, hb, h => .ofStats rfl (((Expr.derivable call hb h.2.2).call h.1).stat.line hb)
  | .ret none, _, hb, _ =>
    ⟨fun hr => absurd hr.symm false_ne_true, fun _ => ⟨_, .ret, lexesAs_wordLine hb "return" rfl⟩⟩
  | .ret (some value), _, hb, h =>
    ⟨fun hr => absurd hr.symm false_ne_true, fun _ =>
      (derived_return (Expr.derivable value hb h).exp).line hb⟩
  | .retInside none, _, hb, _ => by
    have hscope := derived_scope ⟨_, .ret, (lexesAs_word (rfl : isName "return" = true)).exp⟩
    exact .ofStat rfl (hscope.line hb)
  | .retInside (some value), _, hb, h => by
    have hscope := derived_scope (derived_return (Expr.derivable value hb h).exp)
    have hopen : "do return" = "do " ++ "return" := rfl
    refine .ofStat rfl (Derived.line hb ?_)
    change Derived IsStat endsExp ("do return" ++ (" " ++ _) ++ " end")
    rw [hopen]
    simpa only [String.append_assoc] using hscope
  | .brk, _, hb, _ => .ofStat rfl ⟨_, .brk, lexesAs_wordLine hb "break" rfl⟩
  | .goto label, _, hb, _ => .ofStat rfl ((derived_goto (isFreeName_labelName label)).line hb)
  | .label label, _, hb, _ => .ofStat rfl ((derived_label (isFreeName_labelName label)).line hb)
  | .scope body, layout, hb, h =>
    .ofStat rfl (derived_scopeLines hb (Stmt.derivable_texts body hb.deeper h))
  | .loopWhile cond body, layout, hb, h =>
    .ofStat rfl (derived_while hb (Stmt.derivable_texts body hb.deeper h.2)
      (Expr.derivable cond hb h.1).exp)
  | .loopUntilNot body cond, layout, hb, h =>
    .ofStat rfl (derived_untilNot hb (Stmt.derivable_texts body hb.deeper h.2)
      (Expr.derivable cond hb h.1).exp)
  | .test cond, _, hb, h => .ofStat rfl ((derived_test (Expr.derivable cond hb h).exp).line hb)
  | .branches arms none, layout, hb, h => by
    have hif : LexesAs anything "if " [.word "if"] := lexesAs_of_blank rfl
    obtain ⟨ts, hts, hlex⟩ := Stmt.derivable_arms arms hb h.1 h.2.1 "if " _ hif "" (.inl rfl)
    have hend := hlex.and (lexesAs_wordLine hb "end" rfl)
    exact .ofStat rfl ⟨_, .branches hts, hend⟩
  | .branches arms (some body), layout, hb, h => by
    have hif : LexesAs anything "if " [.word "if"] := lexesAs_of_blank rfl
    obtain ⟨us, hus, hlexBody⟩ := Stmt.derivable_texts body hb.deeper h.2.2
    obtain ⟨ts, hts, hlex⟩ := Stmt.derivable_arms arms hb h.1 h.2.1 "if " _ hif _
      (.inr ⟨us, hus, (lexesAs_wordLine hb "else" rfl).and hlexBody⟩)
    have hend := hlex.and (lexesAs_wordLine hb "end" rfl)
    exact .ofStat rfl ⟨_, .branches hts, hend⟩
  | .default _ value, _, hb, h =>
    .ofStat rfl ((derived_default h.1 (Expr.derivable value hb h.2).exp).line hb)
  | .protect body, layout, hb, h =>
    .ofStat rfl (derived_protect hb (Stmt.derivable_texts body hb.deeper h))

theorem Stmt.derivable_texts : ∀ (code : List Stmt) {layout : Layout}, layout.Blank →
    Stmt.AllFormed IsFreeName Storable code → Derived IsBlock anything (Stmt.texts layout code)
  | [], _, _, _ => ⟨[], .nil, lexesAs_empty⟩
  | s :: rest, layout, hb, h => by
    have hs := Stmt.derivable s hb h.1
    obtain ⟨us, hus, hlexRest⟩ := Stmt.derivable_texts rest hb h.2.2
    -- A return ends the block, so nothing is left after it.
    cases hreturn : s.isReturn with
    | true =>
      obtain rfl : rest = [] := h.2.1 hreturn
      obtain ⟨ts, hts, hlex⟩ := hs.block hreturn
      refine ⟨ts, hts, ?_⟩
      have htext : Stmt.texts layout [s] = s.text layout := String.append_empty
      rwa [htext]
    | false =>
      obtain ⟨ts, hts, hlex⟩ := hs.stats hreturn
      exact ⟨ts ++ us, hts us hus, hlex.and hlexRest⟩

/-- The arms of a branch, and what is done otherwise. -/
theorem Stmt.derivable_arms : ∀ (arms : List (Arm Expr Stmt)) {layout : Layout}, layout.Blank →
    arms ≠ [] → Stmt.ArmsFormed IsFreeName Storable arms → ∀ (word : String) (token : Lexeme),
    LexesAs anything word [token] → ∀ rest : String,
    (rest = "" ∨ ∃ us, IsBlock us ∧ LexesAs anything rest ([.word "else"] ++ us)) →
    ∃ ts, IsArms ts ∧ LexesAs anything (Stmt.armsText layout word arms ++ rest) ([token] ++ ts)
  | [], _, _, hne, _, _, _, _, _, _ => absurd rfl hne
  | [⟨cond, body⟩], layout, hb, _, h, word, token, hword, rest, hrest => by
    obtain ⟨ts, hts, hlexCond⟩ := (Expr.derivable cond hb h.1.1).exp
    obtain ⟨us, hus, hlexBody⟩ := Stmt.derivable_texts body hb.deeper h.1.2
    have harm := (lexesAs_arm hb hword hlexCond).and hlexBody
    have htext : Stmt.armsText layout word [⟨cond, body⟩] =
        layout.line (word ++ cond.text layout ++ " then") ++ Stmt.texts layout.deeper body :=
      String.append_empty
    rw [htext]
    obtain rfl | ⟨vs, hvs, hlexRest⟩ := hrest
    · refine ⟨_, .last hts hus, ?_⟩
      rw [String.append_empty]
      simpa only [append_assoc] using harm
    · refine ⟨_, .otherwise hts hus hvs, ?_⟩
      simpa only [append_assoc] using harm.and hlexRest
  | ⟨cond, body⟩ :: arm :: arms, layout, hb, _, h, word, token, hword, rest, hrest => by
    obtain ⟨ts, hts, hlexCond⟩ := (Expr.derivable cond hb h.1.1).exp
    obtain ⟨us, hus, hlexBody⟩ := Stmt.derivable_texts body hb.deeper h.1.2
    have helseif : LexesAs anything "elseif " [.word "elseif"] := lexesAs_of_blank rfl
    obtain ⟨vs, hvs, hlexRest⟩ := Stmt.derivable_arms (arm :: arms) hb (cons_ne_nil _ _) h.2
      "elseif " _ helseif rest hrest
    refine ⟨_, .next hts hus hvs, ?_⟩
    have hwhole := ((lexesAs_arm hb hword hlexCond).and hlexBody).and hlexRest
    rw [← String.append_assoc] at hwhole
    simp only [append_assoc] at hwhole ⊢
    exact hwhole

end

/-- **The text of well-formed code is a program.** -/
theorem isProgram_texts {layout : Layout} {code : Block} (hb : layout.Blank)
    (h : Stmt.AllFormed IsFreeName Storable code) : IsProgram (Stmt.texts layout code) := by
  obtain ⟨ts, hts, hlex⟩ := Stmt.derivable_texts code hb h
  have hread := hlex [] nofun
  rw [append_nil] at hread
  refine ⟨ts, ?_, hts⟩
  simpa [lex, LexState.finish] using hread

end LuaBackend.Lua
