import LuaBackend.Proofs.Lua.Lines

/-!
# Places that code stores into

A call that begins with a parenthesis is set apart from the statement
before it, an assignment is not. So the lines of well-formed code that
begin with a parenthesis are those of its assignments to something that
`opens`, at any depth.
-/

namespace LuaBackend.Lua

open Text

mutual

def Expr.places : Expr → List Expr
  | .nil | .bool _ | .int _ | .float _ | .string _ | .name _ => []
  | .paren inner | .not inner | .neg inner => inner.places
  | .member object _ | .key object _ => object.places
  | .index object position => object.places ++ position.places
  | .call callee args | .callWithSelf callee args | .method callee _ args =>
    callee.places ++ Expr.placesIn args
  | .binary _ lhs rhs => lhs.places ++ rhs.places
  | .function _ body | .block body => Stmt.placesIn body
  | .object fields => Expr.fieldPlaces fields
  | .array elements => Expr.placesIn elements
  | .verbatim pieces => Expr.piecePlaces pieces

def Expr.placesIn : List Expr → List Expr
  | [] => []
  | e :: rest => e.places ++ Expr.placesIn rest

def Expr.optionPlaces : Option Expr → List Expr
  | none => []
  | some e => e.places

def Expr.fieldPlaces : List (FieldInit Expr) → List Expr
  | [] => []
  | ⟨_, value⟩ :: rest => value.places ++ Expr.fieldPlaces rest

def Expr.piecePlaces : List (Piece Expr) → List Expr
  | [] => []
  | .text _ :: rest => Expr.piecePlaces rest
  | .code e :: rest => e.places ++ Expr.piecePlaces rest

def Stmt.places : Stmt → List Expr
  | .brk | .goto _ | .label _ => []
  | .assign place value => place :: (place.places ++ value.places)
  | .localVar _ value | .ret value | .retInside value => Expr.optionPlaces value
  | .call e | .run e | .test e | .default _ e => e.places
  | .scope body | .protect body | .define _ _ body => Stmt.placesIn body
  | .loopWhile cond body => cond.places ++ Stmt.placesIn body
  | .loopUntilNot body cond => Stmt.placesIn body ++ cond.places
  | .branches arms otherwise => Stmt.armPlaces arms ++ Stmt.otherwisePlaces otherwise

def Stmt.placesIn : List Stmt → List Expr
  | [] => []
  | s :: rest => s.places ++ Stmt.placesIn rest

def Stmt.armPlaces : List (Arm Expr Stmt) → List Expr
  | [] => []
  | ⟨cond, body⟩ :: rest => cond.places ++ Stmt.placesIn body ++ Stmt.armPlaces rest

def Stmt.otherwisePlaces : Option (List Stmt) → List Expr
  | none => []
  | some body => Stmt.placesIn body

end

section

variable {N : String → Prop} {S : Expr → Prop}

/-- Whatever well-formed code stores into can be stored into. -/
theorem Stmt.forall_mem_placesIn (code : List Stmt) :
    Stmt.AllFormed N S code → ∀ p ∈ Stmt.placesIn code, S p := by
  apply Stmt.placesIn.induct (fun e => e.Formed N S → ∀ p ∈ e.places, S p) (fun pieces => True)
    (fun fields => Expr.FieldsFormed N S fields → ∀ p ∈ Expr.fieldPlaces fields, S p)
    (fun code => Stmt.AllFormed N S code → ∀ p ∈ Stmt.placesIn code, S p)
    (fun s => s.Formed N S → ∀ p ∈ s.places, S p)
    (fun otherwise => Stmt.OtherwiseFormed N S otherwise →
      ∀ p ∈ Stmt.otherwisePlaces otherwise, S p)
    (fun arms => Stmt.ArmsFormed N S arms → ∀ p ∈ Stmt.armPlaces arms, S p)
    (fun part => Expr.OptionFormed N S part → ∀ p ∈ Expr.optionPlaces part, S p)
    (fun es => Expr.AllFormed N S es → ∀ p ∈ Expr.placesIn es, S p)
  all_goals grind [Expr.Formed, Expr.AllFormed, Expr.OptionFormed, Expr.FieldsFormed, Stmt.Formed,
    Stmt.AllFormed, Stmt.ArmsFormed, Stmt.OtherwiseFormed, Expr.places, Expr.placesIn,
    Expr.optionPlaces, Expr.fieldPlaces, Stmt.places, Stmt.placesIn, Stmt.armPlaces,
    Stmt.otherwisePlaces]

end

/-! ## Their lines -/

section

variable {S : Expr → Prop} {layout : Layout} {text : String} {ps : List Expr}

theorem lines_flat (text : String) (h : text.toList.all (· != '\n') = true) :
    Lines false text false [] := (flat_literal text h).lines

theorem flat_nameList {names : List String} (h : ∀ n ∈ names, isName n = true) :
    Flat (nameList names) := by
  rw [nameList_eq]
  · exact flat_intercalate (flat_literal ", " rfl) fun n hn => flat_of_isName (h n hn)
  · rintro n hn rfl
    cases h "" hn

theorem Lines.afterSelf (h : Lines false text false ps) :
    Lines false (if text.isEmpty then "" else ", " ++ text) false ps := by
  split
  · rename_i hempty
    rwa [String.isEmpty_iff.1 hempty] at h
  · exact (lines_flat ", " rfl).before h

/-- The lines of a body, up to the word that ends it. -/
theorem Lines.enclosed {opening closing : String} (hb : layout.Blank)
    (hopen : Lines false opening true []) (h : Lines true text true ps)
    (hclose : Lines true closing false []) :
    Lines false (opening ++ text ++ layout.indent ++ closing) false ps :=
  ((hopen.before h).after (lines_blanks hb.indent)).after hclose

mutual

/-- Lines begin with a parenthesis in functions only. -/
theorem Expr.lines : ∀ (e : Expr) {layout : Layout}, layout.Blank → e.Formed IsName S →
    Lines false (e.text layout) false e.places
  | .nil, _, _, _ => lines_flat "nil" rfl
  | .bool true, _, _, _ => lines_flat "true" rfl
  | .bool false, _, _, _ => lines_flat "false" rfl
  | .int value, _, _, _ => (flat_int value).lines
  | .float value, _, _, _ => (flat_float value).lines
  | .string value, _, _, _ => (flat_quote value).lines
  | .name _, _, _, h => by
    obtain ⟨name, names, hnames, rfl⟩ := h
    exact (flat_intercalate (flat_literal "." rfl) fun n hn => flat_of_isName (hnames n hn)).lines
  | .paren inner, _, hb, h =>
    ((lines_flat "(" rfl).before (Expr.lines inner hb h)).after (lines_flat ")" rfl)
  | .member first name, _, hb, h => (Expr.lines first hb h.2).after (flat_member name).lines
  | .key first name, _, hb, h =>
    (((Expr.lines first hb h.2).after (lines_flat "[" rfl)).after (flat_quote name).lines).after
      (lines_flat "]" rfl)
  | .index first position, _, hb, h =>
    (((Expr.lines first hb h.1.2).after (lines_flat "[" rfl)).append
      (Expr.lines position hb h.2)).after (lines_flat "]" rfl)
  | .call first args, _, hb, h =>
    (((Expr.lines first hb h.1.2).after (lines_flat "(" rfl)).append
      (Expr.lines_texts (flat_literal ", " rfl) args hb h.2)).after (lines_flat ")" rfl)
  | .method first _ args, _, hb, h =>
    (((((Expr.lines first hb h.1.2).after (lines_flat ":" rfl)).after
      (flat_identifier h.2.1).lines).after (lines_flat "(" rfl)).append
      (Expr.lines_texts (flat_literal ", " rfl) args hb h.2.2)).after (lines_flat ")" rfl)
  | .callWithSelf first args, _, hb, h =>
    (((Expr.lines first hb h.1.2).after (lines_flat "(self" rfl)).append
      (Expr.lines_texts (flat_literal ", " rfl) args hb h.2).afterSelf).after (lines_flat ")" rfl)
  | .binary op lhs rhs, _, hb, h =>
    ((((Expr.lines lhs hb h.1).after (lines_flat " " rfl)).after (flat_spelling op).lines).after
      (lines_flat " " rfl)).append (Expr.lines rhs hb h.2)
  | .not inner, _, hb, h => (lines_flat "not " rfl).before (Expr.lines inner hb h)
  | .neg inner, layout, hb, h => by
    have hinner := Expr.lines inner hb h
    change Lines false (if startsWith '-' (inner.text layout) then "-(" ++ inner.text layout ++ ")"
      else "-" ++ inner.text layout) false inner.places
    split
    · exact ((lines_flat "-(" rfl).before hinner).after (lines_flat ")" rfl)
    · exact (lines_flat "-" rfl).before hinner
  | .function _ [], _, _, h =>
    ((lines_flat "function(" rfl).before (flat_nameList h.1).lines).after (lines_flat ") end" rfl)
  | .function _ (s :: rest), _, hb, h =>
    .enclosed hb (((lines_flat "function(" rfl).before
      (flat_nameList h.1).lines).before (lines_literal ")\n" (by decide)))
      (Stmt.lines_texts (s :: rest) hb.deeper h.2) (lines_literal "end" (by decide))
  | .block body, _, hb, h =>
    .enclosed hb (lines_literal "(function()\n" (by decide)) (Stmt.lines_texts body hb.deeper h)
      (lines_literal "end)()" (by decide))
  | .object fields, _, hb, h => by
    have hkeys : Flat (",".intercalate (fields.map fun f => tableKey f.name ++ "=true")) := by
      refine flat_intercalate (flat_literal "," rfl) (List.forall_mem_map.2 fun f _ => ?_)
      exact (flat_tableKey f.name).append (flat_literal "=true" rfl)
    exact ((((lines_flat "_hx_o(\x7b__fields__=\x7b" rfl).before hkeys.lines).before
      (lines_flat "\x7d" rfl)).before (Expr.lines_fields fields hb h)).after
      (lines_flat "\x7d)" rfl)
  | .array elements, layout, hb, h => by
    have hfirst : Lines false (if elements.isEmpty then "" else "[0]=") false [] := by
      split
      · exact lines_flat "" rfl
      · exact lines_flat "[0]=" rfl
    exact (((((lines_flat "_hx_tab_array(\x7b" rfl).before hfirst).before
      (Expr.lines_texts (flat_literal ", " rfl) elements hb h)).after
      (lines_flat "\x7d, " rfl)).after (flat_int elements.length).lines).after
      (lines_flat ")" rfl)

theorem Expr.lines_texts {sep : String} (hsep : Flat sep) : ∀ (es : List Expr) {layout : Layout},
    layout.Blank → Expr.AllFormed IsName S es →
      Lines false (sep.intercalate (Expr.texts layout es)) false (Expr.placesIn es)
  | [], _, _, _ => lines_empty
  | [e], _, hb, h => by
    have honly := Expr.lines e hb h.1
    rwa [← List.append_nil e.places] at honly
  | e :: next :: rest, _, hb, h => by
    rw [Expr.texts, Expr.texts, String.intercalate_cons_cons, ← Expr.texts]
    exact ((Expr.lines e hb h.1).after hsep.lines).append (Expr.lines_texts hsep (next :: rest) hb h.2)

theorem Expr.lines_fields : ∀ (fields : List (FieldInit Expr)) {layout : Layout}, layout.Blank →
    Expr.FieldsFormed IsName S fields →
      Lines false (Expr.fieldsText layout fields) false (Expr.fieldPlaces fields)
  | [], _, _, _ => lines_empty
  | ⟨name, value⟩ :: rest, _, hb, h =>
    ((((lines_flat "," rfl).before (flat_tableKey name).lines).before (lines_flat "=" rfl)).before
      (Expr.lines value hb h.1)).append (Expr.lines_fields rest hb h.2)

theorem Expr.lines_option {word : String} (hword : Flat word) : ∀ (value : Option Expr)
    {layout : Layout}, layout.Blank → Expr.OptionFormed IsName S value →
      Lines false (Expr.optionText layout word value) false (Expr.optionPlaces value)
  | none, _, _, _ => lines_empty
  | some e, _, hb, h => hword.lines.before (Expr.lines e hb h)

/-- The lines of a statement, by induction on the code. -/
theorem Stmt.lines : ∀ (s : Stmt) {layout : Layout}, layout.Blank → s.Formed IsName S →
    Lines true (s.text layout) true s.places
  | .localVar _ value, _, hb, h =>
    (((lines_literal "local " (by decide)).before (flat_of_isName h.1).lines).before
      (Expr.lines_option (flat_literal " = " rfl) value hb h.2)).line hb
  | .assign place value, layout, hb, h => by
    -- Nothing goes in front of the place.
    obtain ⟨c, hstart, hc, hopens⟩ := place.starts (fun _ hn => hn) layout h.2.1
    have htext := ((Expr.lines place hb h.2.1).after (lines_flat " = " rfl)).append
      (Expr.lines value hb h.2.2)
    exact (htext.placeStart ((hstart.append _).append _) hc hopens).line hb
  | .call call, layout, hb, h => by
    obtain ⟨c, hstart, hc, -⟩ := call.starts (fun _ hn => hn) layout h.2
    have htext := Expr.lines call hb h.2
    refine Lines.line hb ?_
    -- A semicolon goes in front if, and only if, the call begins with a parenthesis.
    rw [hstart.startsWith]
    split
    · exact (lines_literal ";" (by decide)).before htext
    · rename_i hne
      exact htext.plainStart hstart ⟨hc, by simpa using hne⟩
  | .run call, layout, hb, h => by
    obtain ⟨c, hstart, hc, hopens⟩ := call.starts (fun _ hn => hn) layout h.2.2
    have hplain : c ≠ '(' := fun hparen =>
      Bool.false_ne_true (h.2.1.symm.trans (hopens.1 hparen))
    exact ((Expr.lines call hb h.2.2).plainStart hstart ⟨hc, hplain⟩).line hb
  | .ret value, _, hb, h =>
    ((lines_literal "return" (by decide)).before
      (Expr.lines_option (flat_literal " " rfl) value hb h)).line hb
  | .retInside value, _, hb, h =>
    (((lines_literal "do return" (by decide)).before
      (Expr.lines_option (flat_literal " " rfl) value hb h)).after (lines_flat " end" rfl)).line hb
  | .brk, _, hb, _ => (lines_literal "break" (by decide)).line hb
  | .goto label, _, hb, _ =>
    ((lines_literal "goto " (by decide)).before
      (flat_of_isName (isFreeName_labelName label).1).lines).line hb
  | .label label, _, hb, _ =>
    (((lines_literal "::" (by decide)).before
      (flat_of_isName (isFreeName_labelName label).1).lines).before (lines_flat "::" rfl)).line hb
  | .scope body, _, hb, h =>
    (((lines_literal "do" (by decide)).line hb).before (Stmt.lines_texts body hb.deeper h)).after
      ((lines_literal "end" (by decide)).line hb)
  | .loopWhile cond body, _, hb, h =>
    (((((lines_literal "while " (by decide)).before (Expr.lines cond hb h.1)).after
      (lines_flat " do" rfl)).line hb).append (Stmt.lines_texts body hb.deeper h.2)).after
      ((lines_literal "end" (by decide)).line hb)
  | .loopUntilNot body cond, _, hb, h =>
    (((lines_literal "repeat" (by decide)).line hb).before
      (Stmt.lines_texts body hb.deeper h.2)).append
      ((((lines_literal "until not (" (by decide)).before (Expr.lines cond hb h.1)).after
        (lines_flat ")" rfl)).line hb)
  | .test cond, _, hb, h =>
    (((lines_literal "if " (by decide)).before (Expr.lines cond hb h)).after
      (lines_flat " then end" rfl)).line hb
  | .branches arms otherwise, _, hb, h =>
    ((Stmt.lines_arms arms hb h.2.1 "if " (lines_literal "if " (by decide))).append
      (Stmt.lines_otherwise otherwise hb h.2.2)).after ((lines_literal "end" (by decide)).line hb)
  | .default name value, _, hb, h => by
    have hname := (flat_of_isName h.1).lines
    exact (((((((lines_literal "if " (by decide)).before hname).before
      (lines_flat " == nil then " rfl)).before hname).before (lines_flat " = " rfl)).before
      (Expr.lines value hb h.2)).after (lines_flat " end" rfl)).line hb
  | .protect body, _, hb, h =>
    (((lines_literal "local _hx_status, _hx_result = pcall(function()" (by decide)).line hb).before
      (Stmt.lines_texts body hb.deeper h)).after ((lines_literal "end)" (by decide)).line hb)

theorem Stmt.lines_texts : ∀ (code : List Stmt) {layout : Layout}, layout.Blank →
    Stmt.AllFormed IsName S code → Lines true (Stmt.texts layout code) true (Stmt.placesIn code)
  | [], _, _, _ => lines_empty
  | s :: rest, _, hb, h => (Stmt.lines s hb h.1).append (Stmt.lines_texts rest hb h.2.2)

theorem Stmt.lines_arms : ∀ (arms : List (Arm Expr Stmt)) {layout : Layout}, layout.Blank →
    Stmt.ArmsFormed IsName S arms → ∀ word : String, Lines true word false [] →
      Lines true (Stmt.armsText layout word arms) true (Stmt.armPlaces arms)
  | [], _, _, _, _, _ => lines_empty
  | ⟨cond, body⟩ :: rest, _, hb, h, word, hword =>
    (((((hword.before (Expr.lines cond hb h.1.1)).after (lines_flat " then" rfl)).line hb).append
      (Stmt.lines_texts body hb.deeper h.1.2))).append
      (Stmt.lines_arms rest hb h.2 "elseif " (lines_literal "elseif " (by decide)))

theorem Stmt.lines_otherwise : ∀ (otherwise : Option (List Stmt)) {layout : Layout}, layout.Blank →
    Stmt.OtherwiseFormed IsName S otherwise →
      Lines true (Stmt.otherwiseText layout otherwise) true (Stmt.otherwisePlaces otherwise)
  | none, _, _, _ => lines_empty
  | some body, _, hb, h =>
    ((lines_literal "else" (by decide)).line hb).before (Stmt.lines_texts body hb.deeper h)

end

/-- **Only assignments begin lines with a parenthesis.** Of the lines of
well-formed code, as many begin with a parenthesis as it stores into places
that open. -/
theorem length_openingLines_texts {code : Block} (hb : layout.Blank)
    (h : Stmt.AllFormed IsName S code) :
    (openingLines (Stmt.texts layout code)).length = (Stmt.placesIn code).countP Expr.opens :=
  (length_openingLines _).trans (Stmt.lines_texts code hb h).count

end

end LuaBackend.Lua
