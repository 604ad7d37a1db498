import LuaBackend.Proofs.Emit.MemberKeys
import LuaBackend.Proofs.Lua.Blocks
import LuaBackend.Proofs.Lua.Starts

/-!
# Derived texts

A text is `Derived` if it is split into lexemes that the grammar derives,
whatever follows. Each form of expression has a rule by which its text is
derived from the texts of its parts.
-/

namespace LuaBackend.Lua

open Text List

variable {name : String} {names params : List String} {parts : List (List Lexeme)}
variable {body indent : String}

/-- It is split into lexemes of the kind, whatever follows that `stop`
admits. -/
def Derived (G : List Lexeme → Prop) (stop : Char → Bool) (text : String) : Prop :=
  ∃ lexemes, G lexemes ∧ LexesAs stop text lexemes

section Pieces

variable {c : Char}

theorem endsWord_of_endsExp (h : endsExp c = true) : endsWord c = true := by
  have hcases : c = ' ' ∨ c = ')' ∨ c = ',' ∨ c = ']' ∨ c = '\x7d' ∨ c = '\n' := by
    simpa [endsExp] using h
  rcases hcases with rfl | rfl | rfl | rfl | rfl | rfl <;> decide

theorem LexesAs.exp {text : String} {lexemes : List Lexeme} (h : LexesAs endsWord text lexemes) :
    LexesAs endsExp text lexemes := h.mono fun _ => endsWord_of_endsExp

/-- A character that does not pass a test is none that does. -/
theorem ne_of_test {p : Char → Bool} {d : Char} (hc : p c = true) (hd : p d = false) : c ≠ d := by
  rintro rfl
  exact absurd (hc.symm.trans hd) (by decide)

theorem lexesAs_opening : LexesAs anything "(" [.sign "("] :=
  lexesAs_closedSign "(" [] ['('] rfl rfl fun _ => rfl

theorem lexesAs_closing : LexesAs anything ")" [.sign ")"] :=
  lexesAs_closedSign ")" [] [')'] rfl rfl fun _ => rfl

theorem lexesAs_closingBracket : LexesAs anything "]" [.sign "]"] :=
  lexesAs_closedSign "]" [] [']'] rfl rfl fun _ => rfl

/-- A bracket does not go on with the first character of an expression. -/
theorem lexesAs_openingBracket : LexesAs isStart "[" [.sign "["] :=
  lexesAs_sign "[" [] ['['] rfl fun c hc => ⟨not_mem_nil, by
    have hbracket : c ≠ '[' := ne_of_test hc rfl
    have hequals : c ≠ '=' := ne_of_test hc rfl
    simp [signRefuses, hbracket, hequals]⟩

theorem lexesAs_equals : LexesAs isStart "=" [.sign "="] :=
  lexesAs_sign "=" [] ['='] rfl fun _ hc =>
    ⟨fun hmem => ne_of_test hc rfl (mem_singleton.1 hmem), rfl⟩

theorem lexesAs_colon : LexesAs isNameStart ":" [.sign ":"] :=
  lexesAs_sign ":" [] [':'] rfl fun _ hc =>
    ⟨fun hmem => ne_of_test hc rfl (mem_singleton.1 hmem), rfl⟩

theorem lexesAs_comma : LexesAs anything "," [.sign ","] :=
  lexesAs_closedSign "," [] [','] rfl rfl fun _ => rfl

theorem lexesAs_separator : LexesAs anything ", " [.sign ","] := lexesAs_of_blank rfl

theorem lexesAs_operator (op : Operator) :
    LexesAs anything (" " ++ op.spelling ++ " ") [op.lexeme] := by
  cases op <;> exact lexesAs_of_blank rfl

end Pieces

/-! ## Expressions -/

section Expressions

variable {text text' : String}

/-- What can be accessed is an expression. -/
theorem Derived.exp (h : Derived IsHead endsWord text) : Derived IsExp endsExp text := by
  obtain ⟨ts, hts, hlex⟩ := h
  exact ⟨ts, .head hts, hlex.exp⟩

theorem Derived.head (h : Derived IsCall endsWord text) : Derived IsHead endsWord text := by
  obtain ⟨ts, hts, hlex⟩ := h
  exact ⟨ts, .call hts, hlex⟩

theorem derived_name (h : IsFreeName text) : Derived IsHead endsWord text :=
  ⟨_, .name h, lexesAs_word h.1⟩

theorem derived_literal (text : String) (h : text ∈ ["nil", "true", "false"]) :
    Derived IsExp endsExp text := by
  have hname : ∀ word ∈ ["nil", "true", "false"], isName word = true := by decide
  exact ⟨_, .literal h, (lexesAs_word (hname text h)).exp⟩

theorem Derived.paren (h : Derived IsExp endsExp text) :
    Derived IsHead endsWord ("(" ++ text ++ ")") := by
  obtain ⟨ts, hts, hlex⟩ := h
  have hwhole := (lexesAs_opening.and hlex).before lexesAs_closing rfl rfl
  exact ⟨_, .paren hts, hwhole.anywhere⟩

theorem Derived.point (h : Derived IsHead endsWord text) (hn : IsFreeName name) :
    Derived IsHead endsWord (text ++ ("." ++ name)) := by
  obtain ⟨ts, hts, hlex⟩ := h
  obtain ⟨c, hc, hstart⟩ := starts_of_isName hn.1
  have hpoint := lexesAs_sign "." [] ['.'] rfl fun c (hc : isNameStart c = true) =>
    ⟨fun hmem => ne_of_test hc rfl (mem_singleton.1 hmem), Bool.eq_false_iff.2 fun hdigit =>
      absurd (hc.symm.trans (isNameStart_of_isDigit hdigit)) (by decide)⟩
  have hsuffix := hpoint.before (lexesAs_word hn.1) hc hstart
  refine ⟨_, .member hts hn, ?_⟩
  rw [append_assoc]
  exact hlex.before hsuffix (c := '.') (starts_literal "." rfl name) rfl

theorem Derived.brackets (h : Derived IsHead endsWord text) (hp : Derived IsExp endsExp text')
    (hstart : ∃ c, Starts text' c ∧ isStart c = true) :
    Derived IsHead endsWord (text ++ "[" ++ text' ++ "]") := by
  obtain ⟨ts, hts, hlex⟩ := h
  obtain ⟨us, hus, hlex'⟩ := hp
  obtain ⟨c, hc, hstart⟩ := hstart
  have hopen := hlex.before lexesAs_openingBracket (c := '[') rfl rfl
  have hwhole := (hopen.before hlex' hc hstart).before lexesAs_closingBracket (c := ']') rfl rfl
  exact ⟨_, .index hts hus, hwhole.anywhere⟩

theorem derived_quote (text : String) : Derived IsExp endsExp (quote text) :=
  ⟨_, .string, lexesAs_quote text⟩

/-- A member, behind a point or in brackets. -/
theorem Derived.member (h : Derived IsHead endsWord text) (name : String) :
    Derived IsHead endsWord (text ++ member name) := by
  unfold Lua.member
  split
  · rename_i hname
    exact h.point (isFreeName_identifier hname)
  · have hkey := h.brackets (derived_quote name) ⟨'"', starts_quote name, rfl⟩
    simpa only [String.append_assoc] using hkey

theorem Derived.points (h : Derived IsHead endsWord text) (hnames : ∀ n ∈ names, IsFreeName n) :
    Derived IsHead endsWord (".".intercalate (text :: names)) := by
  induction names generalizing text with
  | nil => exact h
  | cons name rest ih =>
    rw [forall_mem_cons] at hnames
    have hnext := ih (h.point hnames.1) hnames.2
    rwa [String.intercalate_cons_append, String.intercalate_cons_append, ← String.append_assoc,
      ← String.intercalate_cons_cons] at hnext

theorem derived_dotted (h : Dotted IsFreeName text) : Derived IsHead endsWord text := by
  obtain ⟨name, names, hnames, rfl⟩ := h
  rw [forall_mem_cons] at hnames
  exact (derived_name hnames.1).points hnames.2

theorem derived_numeral (h : IsNumeral text.toList) : Derived IsExp endsExp text :=
  ⟨_, .number, lexesAs_numeral h⟩

/-- Blanks keep an operator apart from its operands. -/
theorem Derived.binary (op : Operator) (hl : Derived IsExp endsExp text)
    (hr : Derived IsExp endsExp text') :
    Derived IsExp endsExp (text ++ " " ++ op.spelling ++ " " ++ text') := by
  obtain ⟨ts, hts, hlex⟩ := hl
  obtain ⟨us, hus, hlex'⟩ := hr
  have hop : Starts (" " ++ op.spelling ++ " ") ' ' := (starts_literal " " rfl _).append _
  have hwhole := (hlex.before (lexesAs_operator op) hop rfl).and hlex'
  refine ⟨_, .binary op hts hus, ?_⟩
  simpa only [String.append_assoc] using hwhole

theorem Derived.not (h : Derived IsExp endsExp text) : Derived IsExp endsExp ("not " ++ text) := by
  obtain ⟨ts, hts, hlex⟩ := h
  have hword : LexesAs anything "not " [.word "not"] := lexesAs_of_blank rfl
  exact ⟨_, .not hts, hword.and hlex⟩

/-- A minus sign must not be followed by another one. -/
theorem Derived.neg (h : Derived IsExp endsExp text) (hstart : ∃ c, Starts text c ∧ c ≠ '-') :
    Derived IsExp endsExp ("-" ++ text) := by
  obtain ⟨ts, hts, hlex⟩ := h
  obtain ⟨c, hc, hne⟩ := hstart
  exact ⟨_, .neg hts, (lexesAs_sign "-" [] ['-'] rfl fun _ hc => ⟨not_mem_nil, decide_eq_false
    (of_decide_eq_true hc)⟩).before hlex hc (decide_eq_true hne)⟩

theorem derived_nat (n : Nat) : Derived IsExp endsExp (toString n) := by
  refine derived_numeral ?_
  rw [toList_toString_nat]
  exact (digits_toDigits n).isNumeral Nat.toDigits_ne_nil

theorem derived_int (value : Int) : Derived IsExp endsExp (toString value) := by
  cases value with
  | ofNat n => exact derived_nat n
  | negSucc n =>
    refine (derived_nat (n + 1)).neg ?_
    obtain ⟨c, hc, -⟩ := starts_int (n + 1 : Nat)
    refine ⟨c, hc, ?_⟩
    have hminus := hc.startsWith '-'
    rintro rfl
    exact absurd ((Emit.startsWith_minus_toString (n + 1)).symm.trans hminus) (by decide)

/-- A float is a numeral, a negation or a quotient. -/
theorem derived_float (value : Number.Binary64) : Derived IsExp endsExp (floatText value) := by
  have hsigned {text : String} (h : Derived IsExp endsExp text)
      (hstart : ∃ c, Starts text c ∧ c ≠ '-') : Derived IsExp endsExp (value.signText ++ text) := by
    unfold Number.Binary64.signText
    split
    · exact h.neg hstart
    · rwa [String.empty_append]
  obtain ⟨-, htext⟩ | ⟨-, htext | ⟨text, htext, hnumeral⟩⟩ := floatText_cases value
  · rw [htext]
    exact ⟨_, .head (.paren (.binary .div .number .number)),
      lexesAs_closedSign "(0/0)" [.sign "(", .number, .sign "/", .number] [')'] rfl rfl
        fun _ => rfl⟩
  · rw [htext]
    exact hsigned (derived_dotted ⟨"math", ["huge"], by decide, rfl⟩).exp ⟨'m', rfl, by decide⟩
  · rw [htext]
    obtain ⟨c, hc, hdigit⟩ := starts_of_isNumeral hnumeral
    refine hsigned (derived_numeral hnumeral) ⟨c, hc, ?_⟩
    rintro rfl
    exact absurd hdigit (by decide)

/-- Texts with a separator are lexemes with commas. -/
theorem derived_intercalate {G : List Lexeme → Prop} {sep : String}
    (hsep : LexesAs anything sep [.sign ","]) (hstart : Starts sep ',') {texts : List String}
    (h : ∀ text ∈ texts, Derived G endsExp text) :
    ∃ parts, (∀ part ∈ parts, G part) ∧ parts.length = texts.length ∧
      LexesAs endsExp (sep.intercalate texts) (commas parts) := by
  induction texts with
  | nil => exact ⟨[], nofun, rfl, lexesAs_empty⟩
  | cons text rest ih =>
    obtain ⟨⟨ts, hts, hlex⟩, hrest⟩ := forall_mem_cons.1 h
    obtain ⟨parts, hparts, hlength, hmore⟩ := ih hrest
    refine ⟨ts :: parts, forall_mem_cons.2 ⟨hts, hparts⟩, congrArg (· + 1) hlength, ?_⟩
    cases rest with
    | nil =>
      obtain rfl : parts = [] := eq_nil_of_length_eq_zero hlength
      exact hlex
    | cons =>
      cases parts with
      | nil => cases hlength
      | cons =>
        rw [String.intercalate_cons_cons]
        exact (hlex.before hsep hstart rfl).and hmore

theorem derived_args {texts : List String} (h : ∀ text ∈ texts, Derived IsExp endsExp text) :
    ∃ args, (∀ a ∈ args, IsExp a) ∧ LexesAs endsExp (", ".intercalate texts) (commas args) := by
  obtain ⟨args, hargs, -, hlex⟩ := derived_intercalate lexesAs_separator rfl h
  exact ⟨args, hargs, hlex⟩

section Calls

variable {texts : List String} (h : Derived IsHead endsWord text)
  (ha : ∀ text ∈ texts, Derived IsExp endsExp text)

include h ha

theorem Derived.call : Derived IsCall endsWord (text ++ "(" ++ ", ".intercalate texts ++ ")") := by
  obtain ⟨ts, hts, hlex⟩ := h
  obtain ⟨args, hargs, hlexArgs⟩ := derived_args ha
  have hopen := hlex.before lexesAs_opening (c := '(') rfl rfl
  have hwhole := (hopen.and hlexArgs).before lexesAs_closing (c := ')') rfl rfl
  exact ⟨_, .value hts hargs, hwhole.anywhere⟩

/-- The receiver comes before the arguments, if there are any. -/
theorem Derived.callWithSelf (hne : ∀ text ∈ texts, text ≠ "") :
    Derived IsCall endsWord (text ++ "(self" ++
      (if (", ".intercalate texts).isEmpty then "" else ", " ++ ", ".intercalate texts) ++ ")") := by
  have hself : Derived IsExp endsExp "self" := (derived_name (by decide)).exp
  have hcall : Derived IsCall endsWord (text ++ "(" ++ ", ".intercalate ("self" :: texts) ++ ")") :=
    h.call (forall_mem_cons.2 ⟨hself, ha⟩)
  have hargs : ", ".intercalate ("self" :: texts) = "self" ++
      (if (", ".intercalate texts).isEmpty then "" else ", " ++ ", ".intercalate texts) := by
    cases texts with
    | nil => rfl
    | cons first rest =>
      have hfirst : first ≠ "" := hne first (.head _)
      have hjoined : (", ".intercalate (first :: rest)).isEmpty = false := by
        refine Bool.eq_false_iff.2 fun hempty => hfirst ?_
        rw [String.isEmpty_iff] at hempty
        cases rest with
        | nil => exact hempty
        | cons =>
          rw [String.intercalate_cons_cons, String.append_assoc, String.append_eq_empty_iff] at hempty
          exact hempty.1
      rw [hjoined, String.intercalate_cons_cons, String.append_assoc]
      rfl
  -- The text is that of a call with one argument more.
  have hopen : "(self" = "(" ++ "self" := rfl
  rw [hargs] at hcall
  rw [hopen]
  simpa only [String.append_assoc] using hcall

theorem Derived.method (hname : isName name = true) : Derived IsCall endsWord
    (text ++ ":" ++ identifier name ++ "(" ++ ", ".intercalate texts ++ ")") := by
  obtain ⟨ts, hts, hlex⟩ := h
  obtain ⟨args, hargs, hlexArgs⟩ := derived_args ha
  have hfree := isFreeName_identifier hname
  obtain ⟨c, hc, hstart⟩ := starts_of_isName hfree.1
  have hmethod :=
    (hlex.before lexesAs_colon (c := ':') rfl rfl).before (lexesAs_word hfree.1) hc hstart
  have hopen := hmethod.before lexesAs_opening (c := '(') rfl rfl
  have hwhole := (hopen.and hlexArgs).before lexesAs_closing (c := ')') rfl rfl
  exact ⟨_, .method hts hfree hargs, hwhole.anywhere⟩

end Calls

theorem foldl_names (hne : text ≠ "") :
    names.foldl (fun text name => if text.isEmpty then name else text ++ ", " ++ name) text =
      ", ".intercalate (text :: names) := by
  induction names generalizing text with
  | nil => rfl
  | cons name rest ih =>
    have hempty : ¬ text.isEmpty = true := fun hempty => hne (String.isEmpty_iff.1 hempty)
    have hnext : text ++ ", " ++ name ≠ "" := by
      rw [String.append_assoc]
      exact fun hnil => hne (String.append_eq_empty_iff.1 hnil).1
    rw [foldl_cons, if_neg hempty, ih hnext, String.append_assoc, String.intercalate_cons_append,
      String.intercalate_cons_append, ← String.append_assoc, ← String.intercalate_cons_cons]

theorem nameList_eq (h : ∀ n ∈ names, n ≠ "") : nameList names = ", ".intercalate names := by
  cases names with
  | nil => rfl
  | cons name => exact foldl_names (h name (.head _))

theorem IsFreeName.ne_empty (h : IsFreeName name) : name ≠ "" := by
  rintro rfl
  exact absurd h.1 (by decide)

theorem lexesAs_params (h : ∀ p ∈ params, IsFreeName p) :
    LexesAs endsExp ("function(" ++ nameList params)
      ([.word "function", .sign "("] ++ commas (params.map fun p => [.word p])) := by
  have hword : LexesAs anything "function(" [.word "function", .sign "("] :=
    lexesAs_closedSign "function(" [.word "function"] ['('] rfl rfl fun _ => rfl
  rw [nameList_eq fun p hp => (h p hp).ne_empty]
  refine hword.and ?_
  induction params with
  | nil => exact lexesAs_empty
  | cons p rest ih =>
    obtain ⟨hp, hrest⟩ := forall_mem_cons.1 h
    have hfirst := (lexesAs_word hp.1).exp
    cases rest with
    | nil => exact hfirst
    | cons =>
      rw [String.intercalate_cons_cons]
      exact (hfirst.before lexesAs_separator rfl rfl).and (ih hrest)

/-- A function over several lines, up to the word that ends it. -/
theorem derived_function (hp : ∀ p ∈ params, IsFreeName p) (hb : Derived IsBlock anything body)
    (hindent : ∀ c ∈ indent.toList, isBlank c = true) :
    Derived IsExp endsWord
      ("function(" ++ nameList params ++ ")\n" ++ body ++ indent ++ "end") := by
  obtain ⟨ts, hts, hlex⟩ := hb
  have hline : LexesAs anything ")\n" [.sign ")"] := lexesAs_of_blank rfl
  have hblank : LexesAs anything indent [] := lexesAs_of_blank (run_blanks hindent)
  have hopen := ((lexesAs_params hp).before hline (c := ')') rfl rfl).and hlex
  have hend : LexesAs endsWord "end" [.word "end"] := lexesAs_word rfl
  have hwhole := (hopen.and hblank).and hend
  refine ⟨_, .function hp hts, ?_⟩
  simpa only [append_nil] using hwhole

theorem derived_emptyFunction (hp : ∀ p ∈ params, IsFreeName p) :
    Derived IsExp endsWord ("function(" ++ nameList params ++ ") end") := by
  have hend : LexesAs endsWord ") end" [.sign ")", .word "end"] :=
    lexesAs_endWord ") end" [.sign ")"] ['e', 'n', 'd'] rfl
  refine ⟨_, .function hp .nil, ?_⟩
  simpa only [append_assoc, nil_append, singleton_append] using
    (lexesAs_params hp).before hend (c := ')') rfl rfl

theorem Derived.end (h : Derived IsExp endsWord text) : Derived IsExp endsExp text := by
  obtain ⟨ts, hts, hlex⟩ := h
  exact ⟨ts, hts, hlex.exp⟩

theorem derived_block (hb : Derived IsBlock anything body)
    (hindent : ∀ c ∈ indent.toList, isBlank c = true) :
    Derived IsCall endsWord ("(function()\n" ++ body ++ indent ++ "end)()") := by
  obtain ⟨ts, hts, hlex⟩ := hb
  -- The call of the literal takes no arguments, so its parentheses close the text.
  have hopen : LexesAs anything "(function()\n"
      [.sign "(", .word "function", .sign "(", .sign ")"] := lexesAs_of_blank rfl
  have hblank : LexesAs anything indent [] := lexesAs_of_blank (run_blanks hindent)
  have hclose : LexesAs endsWord "end)()" [.word "end", .sign ")", .sign "(", .sign ")"] :=
    lexesAs_closedSign "end)()" [.word "end", .sign ")", .sign "("] [')'] rfl rfl fun _ => rfl
  refine ⟨_, @IsCall.value _ [] (.paren (@IsExp.function [] ts nofun hts)) nofun, ?_⟩
  simpa [commas] using ((hopen.and hlex).and hblank).and hclose

/-! ### Tables -/

/-- An entry of a table constructor, with its key. -/
theorem Derived.entry (name : String) (h : Derived IsExp endsExp text)
    (hstart : ∃ c, Starts text c ∧ isStart c = true) :
    Derived IsField endsExp (tableKey name ++ "=" ++ text) := by
  obtain ⟨ts, hts, hlex⟩ := h
  obtain ⟨c, hc, hstart⟩ := hstart
  unfold tableKey
  split
  · rename_i hname
    have hfree := isFreeName_identifier hname
    have hkey := (lexesAs_word hfree.1).before lexesAs_equals (c := '=') rfl rfl
    exact ⟨_, .named hfree hts, hkey.before hlex hc hstart⟩
  · have hquote : LexesAs anything (quote name) [.string] := lexesAs_quote name
    have hbrackets := (lexesAs_openingBracket.before hquote (starts_quote name) rfl).and
      lexesAs_closingBracket
    exact ⟨_, .keyed .string hts, (hbrackets.and lexesAs_equals).before hlex hc hstart⟩

theorem commas_cons (part : List Lexeme) (parts : List (List Lexeme)) :
    commas (part :: parts) = part ++ parts.flatMap fun p => [.sign ","] ++ p := by
  induction parts generalizing part with
  | nil => exact (append_nil part).symm
  | cons next rest ih => rw [commas, ih, flatMap_cons, append_assoc, append_assoc]

/-- Further entries, each after a comma. -/
structure MoreEntries (text : String) (parts : List (List Lexeme)) : Prop where
  fields : ∀ part ∈ parts, IsField part
  lexes : LexesAs endsExp text (parts.flatMap fun p => [.sign ","] ++ p)
  starts : text = "" ∨ Starts text ','

theorem moreEntries_nil : MoreEntries "" [] := ⟨nofun, lexesAs_empty, .inl rfl⟩

theorem MoreEntries.stopsBy (h : MoreEntries text parts) {rest : List Char}
    (hrest : StopsBy endsExp rest) :
    StopsBy endsExp (text.toList ++ rest) := by
  obtain rfl | hcomma := h.starts
  · exact hrest
  · intro c hc
    rw [head?_append, hcomma] at hc
    cases hc
    rfl

theorem MoreEntries.cons {more : String} (name : String) (h : Derived IsExp endsExp text)
    (hstart : ∃ c, Starts text c ∧ isStart c = true) (hmore : MoreEntries more parts) :
    ∃ part, MoreEntries ("," ++ tableKey name ++ "=" ++ text ++ more) (part :: parts) := by
  obtain ⟨part, hpart, hlex⟩ := h.entry name hstart
  have hwhole := (lexesAs_comma.and hlex).append hmore.lexes fun _ => hmore.stopsBy
  refine ⟨part, forall_mem_cons.2 ⟨hpart, hmore.fields⟩, ?_,
    .inr ((((starts_literal "," rfl _).append _).append _).append _)⟩
  simpa only [String.append_assoc, flatMap_cons] using hwhole

/-- An object: the set of its keys, then its entries. -/
theorem derived_object {keys : List String} (hkeys : ∀ key ∈ keys, Derived IsField endsExp key)
    (hmore : MoreEntries text parts) :
    Derived IsCall endsWord ("_hx_o(\x7b__fields__=\x7b" ++ ",".intercalate keys ++ "\x7d" ++ text ++
      "\x7d)") := by
  obtain ⟨set, hset, -, hlexSet⟩ := derived_intercalate lexesAs_comma rfl hkeys
  have hopen : LexesAs anything "_hx_o(\x7b__fields__=\x7b" [.word "_hx_o", .sign "(",
      .sign "\x7b", .word "__fields__", .sign "=", .sign "\x7b"] :=
    lexesAs_closedSign "_hx_o(\x7b__fields__=\x7b" [.word "_hx_o", .sign "(", .sign "\x7b",
      .word "__fields__", .sign "="] ['\x7b'] rfl rfl fun _ => rfl
  have hbrace : LexesAs anything "\x7d" [.sign "\x7d"] :=
    lexesAs_closedSign "\x7d" [] ['\x7d'] rfl rfl fun _ => rfl
  have hclose : LexesAs endsWord "\x7d)" [.sign "\x7d", .sign ")"] :=
    lexesAs_closedSign "\x7d)" [.sign "\x7d"] [')'] rfl rfl fun _ => rfl
  have hwhole := (((hopen.and hlexSet).before hbrace (c := '\x7d') rfl rfl).and
    hmore.lexes).before hclose (c := '\x7d') rfl rfl
  have hfirst : IsField ([.word "__fields__"] ++ [.sign "="] ++
      ([.sign "\x7b"] ++ commas set ++ [.sign "\x7d"])) := .named (by decide) (.table hset)
  have htable := IsExp.table (forall_mem_cons.2 ⟨hfirst, hmore.fields⟩)
  refine ⟨_, .value (.name (by decide : IsFreeName "_hx_o")) (forall_mem_singleton.2 htable), ?_⟩
  simpa [commas, commas_cons] using hwhole

section

variable {texts : List String} (h : ∀ text ∈ texts, Derived IsExp endsExp text)
  (hstart : ∀ text ∈ texts, ∃ c, Starts text c ∧ isStart c = true)
include h hstart

/-- The first element of an array is number zero. -/
theorem derived_elements : ∃ fields, (∀ f ∈ fields, IsField f) ∧ LexesAs endsExp
      ((if texts.isEmpty then "" else "[0]=") ++ ", ".intercalate texts) (commas fields) := by
  obtain ⟨parts, hparts, hlength, hlex⟩ := derived_intercalate lexesAs_separator rfl h
  cases texts with
  | nil =>
    obtain rfl : parts = [] := eq_nil_of_length_eq_zero hlength
    exact ⟨[], nofun, lexesAs_empty⟩
  | cons text rest =>
    cases parts with
    | nil => cases hlength
    | cons part parts =>
      obtain ⟨hpart, hparts⟩ := forall_mem_cons.1 hparts
      obtain ⟨c, hc, hstart⟩ := hstart text (.head _)
      have hjoined : Starts (", ".intercalate (text :: rest)) c := by
        cases rest with
        | nil => exact hc
        | cons =>
          rw [String.intercalate_cons_cons]
          exact (hc.append _).append _
      have hkey : LexesAs isStart "[0]=" [.sign "[", .number, .sign "]", .sign "="] :=
        lexesAs_sign "[0]=" [.sign "[", .number, .sign "]"] ['='] rfl fun _ hc =>
          ⟨fun hmem => ne_of_test hc rfl (mem_singleton.1 hmem), rfl⟩
      have hfirst : IsField ([.sign "["] ++ [.number] ++ [.sign "]"] ++ [.sign "="] ++ part) :=
        .keyed .number hpart
      refine ⟨_ :: parts, forall_mem_cons.2 ⟨hfirst, fun f hf => .element (hparts f hf)⟩, ?_⟩
      have hwhole := hkey.before hlex hjoined hstart
      simpa [commas_cons] using hwhole

theorem derived_array (length : Nat) :
    Derived IsCall endsWord ("_hx_tab_array(\x7b" ++ (if texts.isEmpty then "" else "[0]=") ++
      ", ".intercalate texts ++ "\x7d, " ++ toString length ++ ")") := by
  obtain ⟨fields, hfields, hlex⟩ := derived_elements h hstart
  have hopen : LexesAs anything "_hx_tab_array(\x7b" [.word "_hx_tab_array", .sign "(",
      .sign "\x7b"] :=
    lexesAs_closedSign "_hx_tab_array(\x7b" [.word "_hx_tab_array", .sign "("] ['\x7b'] rfl rfl
      fun _ => rfl
  have hcomma : LexesAs anything "\x7d, " [.sign "\x7d", .sign ","] := lexesAs_of_blank rfl
  obtain ⟨us, hus, hlexLength⟩ := derived_nat length
  have hwhole := ((((hopen.and hlex).before hcomma (c := '\x7d') rfl rfl).and hlexLength).before
    lexesAs_closing (c := ')') rfl rfl)
  have hargs : ∀ a ∈ [[.sign "\x7b"] ++ commas fields ++ [.sign "\x7d"], us], IsExp a :=
    forall_mem_cons.2 ⟨.table hfields, forall_mem_singleton.2 hus⟩
  refine ⟨_, .value (.name (by decide : IsFreeName "_hx_tab_array")) hargs, ?_⟩
  have hcall : LexesAs endsWord _ _ := hwhole.anywhere
  simpa [commas, String.append_assoc] using hcall

end

end Expressions

end LuaBackend.Lua
