import LuaBackend.Proofs.Lua.Programs

/-!
# Lines that begin with a parenthesis

A line that begins with a parenthesis goes on with the statement before
it, if that ends in an expression. Such lines are counted by one walk over
the characters, which knows whether the line is blank so far. Most pieces
of code do not hold a line break.
-/

namespace LuaBackend.Lua

open Text List

def staysFresh (fresh : Bool) (c : Char) : Bool := c == '\n' || (fresh && isBlank c)

def openings (fresh : Bool) : List Char → Nat
  | [] => 0
  | c :: cs => (fresh && c == '(').toNat + openings (staysFresh fresh c) cs

def opensLine (line : List Char) : Bool := (line.dropWhile isBlank).head? == some '('

/-- Walks over neighbouring texts are put together. -/
theorem openings_append (fresh : Bool) (cs ds : List Char) :
    openings fresh (cs ++ ds) = openings fresh cs + openings (cs.foldl staysFresh fresh) ds := by
  induction cs generalizing fresh with
  | nil => exact (Nat.zero_add _).symm
  | cons c cs ih =>
    rw [cons_append, openings, ih, openings, foldl_cons, Nat.add_assoc]

theorem opensLine_cons_of_isBlank {c : Char} (hc : isBlank c = true) (line : List Char) :
    opensLine (c :: line) = opensLine line := by
  rw [opensLine, dropWhile_cons_of_pos hc, opensLine]

theorem opensLine_cons_of_not_isBlank {c : Char} (hc : isBlank c = false) (line : List Char) :
    opensLine (c :: line) = (c == '(') := by
  rw [opensLine, dropWhile_cons_of_neg (by rw [hc]; exact Bool.false_ne_true)]
  rfl

/-- The walk counts the lines that begin with a parenthesis. -/
theorem countP_opensLine_splitOn (cs : List Char) : ∃ line lines, cs.splitOn '\n' = line :: lines ∧
    openings true cs = (line :: lines).countP opensLine ∧
    openings false cs = lines.countP opensLine := by
  induction cs with
  | nil => exact ⟨[], [], rfl, rfl, rfl⟩
  | cons c cs ih =>
    obtain ⟨line, lines, hcut, hfresh, hbegun⟩ := ih
    -- A line break begins a new line, and any other character is added to the first one.
    by_cases hnewline : c = '\n'
    · subst hnewline
      refine ⟨[], line :: lines, by rw [splitOn_cons_eq_if_modifyHead, hcut]; rfl, ?_, ?_⟩
      · rw [countP_cons_of_neg (by decide), ← hfresh]
        exact Nat.zero_add _
      · rw [← hfresh]
        exact Nat.zero_add _
    · have hne : (c == '\n') = false := beq_false_of_ne hnewline
      have hcut' : (c :: cs).splitOn '\n' = (c :: line) :: lines := by
        rw [splitOn_cons_eq_if_modifyHead, hcut, hne]
        rfl
      refine ⟨c :: line, lines, hcut', ?_, ?_⟩
      · cases hblank : isBlank c with
        | true =>
          have hparen : (c == '(') = false := by
            refine beq_false_of_ne ?_
            rintro rfl
            cases hblank
          rw [countP_cons, opensLine_cons_of_isBlank hblank, ← countP_cons, ← hfresh,
            openings, staysFresh, hblank, hparen, hne]
          exact Nat.zero_add _
        | false =>
          rw [countP_cons, opensLine_cons_of_not_isBlank hblank, ← hbegun, openings,
            staysFresh, hblank, hne, Bool.true_and, Nat.add_comm]
          cases c == '(' <;> rfl
      · rw [openings, staysFresh, hne, ← hbegun]
        exact Nat.zero_add _

def openingLines (text : String) : List (List Char) := (text.toList.splitOn '\n').filter opensLine

theorem length_openingLines (text : String) :
    (openingLines text).length = openings true text.toList := by
  obtain ⟨line, lines, hcut, hfresh, -⟩ := countP_opensLine_splitOn text.toList
  rw [openingLines, hcut, hfresh, countP_eq_length_filter]

/-- The walk begins and ends on a line that is blank so far or not, and
finds as many lines that begin with a parenthesis as there are places that
open. -/
structure Lines (fresh : Bool) (text : String) (fresh' : Bool) (places : List Expr) : Prop where
  count : openings fresh text.toList = places.countP Expr.opens
  ends : text.toList.foldl staysFresh fresh = fresh'

section Lines

variable {a b c : Bool} {text more : String} {ps qs : List Expr}

theorem Lines.append (h : Lines a text b ps) (h' : Lines b more c qs) :
    Lines a (text ++ more) c (ps ++ qs) := by
  constructor
  · rw [String.toList_append, openings_append, h.ends, h.count, h'.count, countP_append]
  · rw [String.toList_append, foldl_append, h.ends, h'.ends]

theorem Lines.before (h : Lines a text b []) (h' : Lines b more c qs) :
    Lines a (text ++ more) c qs := h.append h'

theorem Lines.after (h : Lines a text b ps) (h' : Lines b more c []) :
    Lines a (text ++ more) c ps := by
  have hwhole := h.append h'
  rwa [append_nil] at hwhole

theorem lines_empty : Lines a "" a [] := ⟨rfl, rfl⟩

theorem lines_literal (text : String)
    (h : openings a text.toList = 0 ∧ text.toList.foldl staysFresh a = b) :
    Lines a text b [] := ⟨h.1, h.2⟩

def Flat (text : String) : Prop := ∀ c ∈ text.toList, c ≠ '\n'

theorem Flat.append (h : Flat text) (h' : Flat more) : Flat (text ++ more) := by
  rw [Flat, String.toList_append]
  exact forall_mem_append.2 ⟨h, h'⟩

theorem Flat.lines (h : Flat text) : Lines false text false [] := by
  suffices hchars : ∀ cs : List Char, (∀ c ∈ cs, c ≠ '\n') →
      openings false cs = 0 ∧ cs.foldl staysFresh false = false from lines_literal _ (hchars _ h)
  intro cs hcs
  induction cs with
  | nil => exact ⟨rfl, rfl⟩
  | cons c cs ih =>
    obtain ⟨hc, hrest⟩ := forall_mem_cons.1 hcs
    have hstays : staysFresh false c = false := by
      rw [staysFresh, beq_false_of_ne hc]
      rfl
    rw [openings, foldl_cons, hstays]
    exact ⟨(Nat.zero_add _).trans (ih hrest).1, (ih hrest).2⟩

section

variable {c : Char} (h : Lines false text b ps) (hstart : Starts text c)
include h hstart

/-- The first character decides about its line. -/
theorem Lines.atStart
    (hc : isStart c = true) : openings true text.toList = (c == '(').toNat + ps.countP Expr.opens ∧
      text.toList.foldl staysFresh true = b := by
  obtain ⟨hcount, hends⟩ := h
  rw [Starts] at hstart
  cases htext : text.toList with
  | nil => rw [htext] at hstart; cases hstart
  | cons d =>
    rw [htext] at hstart hcount hends
    obtain rfl : d = c := Option.some.inj hstart
    -- No expression begins with a blank, so behind its first character the line has begun.
    have hblank : isBlank d = false := by
      cases hblank : isBlank d with
      | false => rfl
      | true =>
        have hd : d = ' ' ∨ d = '\t' ∨ d = '\n' ∨ d = '\r' := by simpa [isBlank] using hblank
        rcases hd with rfl | rfl | rfl | rfl <;> cases hc
    have hstays (fresh : Bool) : staysFresh fresh d = staysFresh false d := by
      rw [staysFresh, staysFresh, hblank, Bool.and_false, Bool.and_false]
    rw [openings, Bool.false_and] at hcount
    rw [foldl_cons] at hends
    rw [openings, foldl_cons, hstays, Bool.true_and, ← hcount]
    exact ⟨congrArg _ (Nat.zero_add _).symm, hends⟩

theorem Lines.plainStart (hc : Plain c) : Lines true text b ps := by
  obtain ⟨hcount, hends⟩ := h.atStart hstart hc.isStart
  rw [beq_false_of_ne hc.ne_paren] at hcount
  exact ⟨hcount.trans (Nat.zero_add _), hends⟩

/-- A place begins with a parenthesis if it opens. -/
theorem Lines.placeStart {place : Expr} (hc : isStart c = true) (hopens : c = '(' ↔ place.opens = true) :
    Lines true text b (place :: ps) := by
  obtain ⟨hcount, hends⟩ := h.atStart hstart hc
  refine ⟨?_, hends⟩
  rw [hcount, countP_cons, Nat.add_comm]
  refine congrArg _ ?_
  by_cases hparen : c = '('
  · rw [if_pos (hopens.1 hparen), hparen]
    rfl
  · rw [if_neg (mt hopens.2 hparen), beq_false_of_ne hparen]
    rfl

end

theorem lines_blanks (h : ∀ c ∈ text.toList, isBlank c = true) : Lines true text true [] := by
  suffices hchars : ∀ cs : List Char, (∀ c ∈ cs, isBlank c = true) →
      openings true cs = 0 ∧ cs.foldl staysFresh true = true from lines_literal _ (hchars _ h)
  intro cs hcs
  induction cs with
  | nil => exact ⟨rfl, rfl⟩
  | cons c cs ih =>
    obtain ⟨hc, hrest⟩ := forall_mem_cons.1 hcs
    have hstays : staysFresh true c = true := by rw [staysFresh, hc, Bool.true_and, Bool.or_true]
    have hparen : (c == '(') = false := by
      refine beq_false_of_ne ?_
      rintro rfl
      cases hc
    rw [openings, foldl_cons, hstays, hparen]
    exact ⟨(Nat.zero_add _).trans (ih hrest).1, (ih hrest).2⟩

/-- A text takes a line, with its indentation. -/
theorem Lines.line {layout : Layout} (hb : layout.Blank) (h : Lines true text false ps) :
    Lines true (layout.line text) true ps :=
  ((lines_blanks hb.indent).before h).after (lines_literal "\n" (by decide))

end Lines

theorem flat_literal (text : String) (h : text.toList.all (· != '\n') = true) : Flat text :=
  fun c hc => bne_iff_ne.1 (all_eq_true.1 h c hc)

theorem flat_of_isName {name : String} (h : isName name = true) : Flat name := by
  intro c hc
  have hpart := isNamePart_of_isName h c hc
  rintro rfl
  exact absurd hpart (by decide)

theorem flat_intercalate {sep : String} (hsep : Flat sep) {texts : List String}
    (h : ∀ text ∈ texts, Flat text) : Flat (sep.intercalate texts) := by
  induction texts with
  | nil => exact flat_literal "" rfl
  | cons text rest ih =>
    obtain ⟨htext, hrest⟩ := forall_mem_cons.1 h
    cases rest with
    | nil => exact htext
    | cons =>
      rw [String.intercalate_cons_cons]
      exact (htext.append hsep).append (ih hrest)

theorem flat_digits {text : String} (h : Digits text.toList) : Flat text := by
  intro c hc
  have hdigit := h c hc
  rintro rfl
  exact absurd hdigit (by decide)

theorem flat_int (value : Int) : Flat (toString value) := by
  have hnat (n : Nat) : Flat (toString n) :=
    flat_digits (by rw [toList_toString_nat]; exact digits_toDigits n)
  cases value with
  | ofNat n => exact hnat n
  | negSucc n => exact (flat_literal "-" rfl).append (hnat (n + 1))

theorem flat_numeral {text : String} (h : IsNumeral text.toList) : Flat text := by
  have hdigits {ds : List Char} (hds : Digits ds) : ∀ c ∈ ds, c ≠ '\n' := by
    rintro c hc rfl
    exact absurd (hds _ hc) (by decide)
  obtain ⟨whole, fraction, exponent, htext, -, hwhole, hfraction, hexponent⟩ := h
  rw [Flat, htext]
  refine forall_mem_append.2 ⟨forall_mem_append.2 ⟨hdigits hwhole, ?_⟩, ?_⟩
  · obtain rfl | ⟨ds, rfl, hds⟩ := hfraction
    · exact nofun
    · exact forall_mem_cons.2 ⟨by decide, hdigits hds⟩
  · obtain rfl | ⟨sign, ds, rfl, hsign, -, hds⟩ := hexponent
    · exact nofun
    · refine forall_mem_cons.2 ⟨by decide, forall_mem_cons.2 ⟨?_, hdigits hds⟩⟩
      rcases hsign with rfl | rfl <;> decide

theorem flat_float (value : Number.Binary64) : Flat (floatText value) := by
  have hsign : Flat value.signText := by
    unfold Number.Binary64.signText
    split
    · exact flat_literal "-" rfl
    · exact flat_literal "" rfl
  obtain ⟨-, htext⟩ | ⟨-, htext | ⟨text, htext, hnumeral⟩⟩ := floatText_cases value
  · rw [htext]
    exact flat_literal _ rfl
  · rw [htext]
    exact hsign.append (flat_literal _ rfl)
  · rw [htext]
    exact hsign.append (flat_numeral hnumeral)

theorem digitChar_ne_newline {n : Nat} (hn : n < 10) : Nat.digitChar n ≠ '\n' := by
  intro heq
  have hread := digit?_digitChar hn
  rw [heq] at hread
  cases hread

theorem ne_newline_of_escape {code : Nat} {escape : List Char} (h : escape? code = some escape) :
    ∀ c ∈ escape, c ≠ '\n' := by
  obtain ⟨hlt, ⟨letter, rfl, -, -, hletter⟩ | rfl⟩ := escape?_cases h
  · refine forall_mem_cons.2 ⟨by decide, forall_mem_singleton.2 ?_⟩
    rintro rfl
    cases hletter
  · simp only [forall_mem_cons]
    exact ⟨by decide, digitChar_ne_newline (by omega), digitChar_ne_newline (by omega),
      digitChar_ne_newline (by omega), forall_mem_nil _⟩

theorem flat_quote (text : String) : Flat (quote text) := by
  rw [Flat, quote, String.toList_ofList, quoteUnits]
  refine forall_mem_cons.2 ⟨by decide, forall_mem_append.2
    ⟨fun c hc => ?_, forall_mem_singleton.2 (by decide)⟩⟩
  obtain ⟨unit, -, hc⟩ := mem_flatMap.1 hc
  cases hescape : escape? unit.toNat with
  | none =>
    -- A line break is escaped, so what is not escaped is none.
    rw [hescape] at hc
    obtain rfl := mem_singleton.1 hc
    rintro rfl
    cases hescape
  | some escape =>
    rw [hescape] at hc
    change c ∈ escape.map id at hc
    rw [map_id] at hc
    exact ne_newline_of_escape hescape c hc

theorem flat_identifier {name : String} (h : isName name = true) : Flat (identifier name) :=
  flat_of_isName (isFreeName_identifier h).1

theorem flat_member (name : String) : Flat (member name) := by
  unfold member
  split
  · rename_i h
    exact (flat_literal "." rfl).append (flat_identifier h)
  · exact ((flat_literal "[" rfl).append (flat_quote name)).append (flat_literal "]" rfl)

theorem flat_tableKey (name : String) : Flat (tableKey name) := by
  unfold tableKey
  split
  · rename_i h
    exact flat_identifier h
  · exact ((flat_literal "[" rfl).append (flat_quote name)).append (flat_literal "]" rfl)

theorem flat_spelling (op : Operator) : Flat op.spelling := by
  cases op <;> exact flat_literal _ rfl

end LuaBackend.Lua
