import LuaBackend.Proofs.Lua.Numerals
import LuaBackend.Proofs.Lua.Reading
import LuaBackend.Proofs.Lua.Strings

/-!
# Lexemes of a program

How Lua splits the text of a program into words, numerals, strings and
signs, the longest first. Of numerals only decimal ones are read. Comments
and strings in long brackets are refused, since generated code holds none.
`LexesAs stop text lexemes` says that a text is split into the lexemes
whatever follows, as long as that begins with a character that `stop`
admits.
-/

namespace LuaBackend.Lua

open List Option

variable {n : NumeralScan}

/-- What a numeral or a string stands for does not matter. -/
inductive Lexeme where
  | word (text : String)
  | number
  | string
  | sign (text : String)
deriving DecidableEq

/-- What has been read of a numeral. -/
inductive NumeralScan where
  | whole
  | fraction
  /-- The letter of an exponent. -/
  | mark
  /-- The sign of an exponent. -/
  | sign
  | exponent
deriving DecidableEq

namespace NumeralScan

def takes (n : NumeralScan) (c : Char) : Bool :=
  isNamePart c || c = '.' || (n = mark && (c = '+' || c = '-'))

def step? (n : NumeralScan) (c : Char) : Option NumeralScan :=
  match n with
  | whole =>
    if c.isDigit then some whole else if c = '.' then some fraction
    else if c = 'e' then some mark else none
  | fraction => if c.isDigit then some fraction else if c = 'e' then some mark else none
  | mark => if c.isDigit then some exponent else if c = '+' || c = '-' then some sign else none
  | sign | exponent => if c.isDigit then some exponent else none

def isComplete : NumeralScan → Bool
  | whole | fraction | exponent => true
  | mark | sign => false

end NumeralScan

def signStarts : List Char :=
  ['+', '-', '*', '/', '%', '^', '#', '&', '~', '|', '<', '>', '=', '(', ')', '\x7b', '\x7d', '[',
    ']', ';', ':', ',', '.']

def signExtensions : List Char → List Char
  | ['='] | ['~'] => ['=']
  | ['<'] => ['=', '<']
  | ['>'] => ['=', '>']
  | ['.'] | ['.', '.'] => ['.']
  | [':'] => [':']
  | ['/'] => ['/']
  | _ => []

/-- With this character begins something that is not read: a comment, a
string in long brackets or a numeral. -/
def signRefuses : List Char → Char → Bool
  | ['-'], c => c = '-'
  | ['['], c => c = '[' || c = '='
  | ['.'], c => c.isDigit
  | _, _ => false

/-- What has been read of a lexeme. -/
inductive LexState where
  | blank
  | word (chars : List Char)
  | number (n : NumeralScan)
  | sign (chars : List Char)
  | string (s : StringScan)

namespace LexState

def begin? (c : Char) : Option LexState :=
  if isNameStart c then some (word [c])
  else if c.isDigit then some (number .whole)
  else if isBlank c then some blank
  else if c = '"' then some (string .plain)
  else if signStarts.contains c then some (sign [c])
  else none

def finish : LexState → Option (List Lexeme)
  | blank => some []
  | word chars => some [.word (String.ofList chars)]
  | number n => if n.isComplete then some [.number] else none
  | sign chars => some [.sign (String.ofList chars)]
  | string _ => none

def next (s : LexState) (c : Char) : Option (List Lexeme × LexState) := do
  let ended ← s.finish
  return (ended, ← begin? c)

def step (s : LexState) (c : Char) : Option (List Lexeme × LexState) :=
  match s with
  | blank => s.next c
  | word chars => if isNamePart c then some ([], word (chars ++ [c])) else s.next c
  | number n => if n.takes c then (n.step? c).map fun n => ([], number n) else s.next c
  | sign chars =>
    if (signExtensions chars).contains c then some ([], sign (chars ++ [c]))
    else if signRefuses chars c then none
    else s.next c
  | string scan =>
    match scan.take? asciiChar? c.toNat with
    | some (_, scan') => some ([], string scan')
    | none =>
      match scan.finish? asciiChar? with
      | none => none
      | some _ =>
        if c.toNat = 34 then some ([.string], blank)
        else if c.toNat = 10 || c.toNat = 13 then none
        else if c.toNat = 92 then some ([], string .escape)
        else some ([], string .plain)

def run (s : LexState) : List Char → Option (List Lexeme × LexState)
  | [] => some ([], s)
  | c :: cs => do
    let (lexemes, s') ← s.step c
    let (more, s'') ← run s' cs
    return (lexemes ++ more, s'')

end LexState

def lex (s : LexState) : List Char → Option (List Lexeme)
  | [] => s.finish
  | c :: rest => do
    let (lexemes, s') ← s.step c
    return lexemes ++ (← lex s' rest)

/-- What follows begins with a character that `stop` admits. -/
def StopsBy (stop : Char → Bool) (rest : List Char) : Prop := ∀ c ∈ rest.head?, stop c = true

def LexesAs (stop : Char → Bool) (text : String) (lexemes : List Lexeme) : Prop :=
  ∀ rest, StopsBy stop rest →
    lex .blank (text.toList ++ rest) = (lex .blank rest).map (lexemes ++ ·)

def anything : Char → Bool := fun _ => true

def endsWord (c : Char) : Bool := !isNamePart c

def endsExp (c : Char) : Bool := c ∈ [' ', ')', ',', ']', '\x7d', '\n']

section Lex

variable {s s' : LexState} {c : Char} {cs rest : List Char} {lexemes more last : List Lexeme}
variable {stop stop' : Char → Bool} {text text' : String}

theorem map_append_lexemes (o : Option (List Lexeme)) :
    (o.map (more ++ ·)).map (lexemes ++ ·) = o.map (lexemes ++ more ++ ·) := by
  cases o <;> simp

theorem lex_step (h : s.step c = some (lexemes, s')) :
    lex s (c :: rest) = (lex s' rest).map (lexemes ++ ·) := by
  rw [lex, h]
  cases h : lex s' rest <;> simp [h]

theorem lex_run (h : s.run cs = some (lexemes, s')) :
    lex s (cs ++ rest) = (lex s' rest).map (lexemes ++ ·) := by
  induction cs generalizing s lexemes with
  | nil =>
    cases h
    exact map_id'.symm
  | cons c cs ih =>
    obtain ⟨⟨first, s₁⟩, hstep, h⟩ := bind_eq_some_iff.1 h
    obtain ⟨⟨others, s₂⟩, hrun, h⟩ := bind_eq_some_iff.1 h
    cases h
    rw [cons_append, lex_step hstep, ih hrun, map_append_lexemes]

/-- A lexeme ends where the next character does not go on with it. -/
theorem lex_of_next (hfinish : s.finish = some last)
    (hnext : ∀ c ∈ rest.head?, s.step c = s.next c) :
    lex s rest = (lex .blank rest).map (last ++ ·) := by
  cases rest with
  | nil =>
    rw [lex, lex, hfinish]
    exact congrArg some (append_nil last).symm
  | cons c rest =>
    have hstep : s.step c = s.next c := hnext c rfl
    have hblank : LexState.blank.step c = LexState.blank.next c := rfl
    rw [lex, lex, hstep, hblank, LexState.next, LexState.next, hfinish]
    cases LexState.begin? c with
    | none => rfl
    | some begun => cases h : lex begun rest <;> simp [h, LexState.finish]

/-- A text that is one lexeme at its end. -/
theorem lexesAs_of_run (hrun : LexState.blank.run text.toList = some (lexemes, s))
    (hfinish : s.finish = some last) (hnext : ∀ c, stop c = true → s.step c = s.next c) :
    LexesAs stop text (lexemes ++ last) := by
  intro rest hrest
  rw [lex_run hrun, lex_of_next hfinish fun c hc => hnext c (hrest c hc), map_append_lexemes]

theorem lexesAs_of_blank (hrun : LexState.blank.run text.toList = some (lexemes, .blank)) :
    LexesAs stop text lexemes := by
  have h : LexesAs stop text (lexemes ++ []) := lexesAs_of_run hrun rfl fun _ _ => rfl
  rwa [append_nil] at h

theorem LexesAs.mono (h : LexesAs stop text lexemes) (hstop : ∀ c, stop' c = true → stop c = true) :
    LexesAs stop' text lexemes :=
  fun rest hrest => h rest fun c hc => hstop c (hrest c hc)

/-- What is split whatever follows is split before anything. -/
theorem LexesAs.anywhere (h : LexesAs anything text lexemes) : LexesAs stop text lexemes :=
  h.mono fun _ _ => rfl

theorem lexesAs_empty : LexesAs stop "" [] := fun _ _ => map_id'.symm

/-- Two texts, the second of which may follow the first. -/
theorem LexesAs.append (h : LexesAs stop text lexemes) (h' : LexesAs stop' text' more)
    (hstop : ∀ rest, StopsBy stop' rest → StopsBy stop (text'.toList ++ rest)) :
    LexesAs stop' (text ++ text') (lexemes ++ more) := by
  intro rest hrest
  rw [String.toList_append, append_assoc, h _ (hstop rest hrest), h' rest hrest, map_append_lexemes]

/-- A text before one that begins with a character that may follow. -/
theorem LexesAs.before (h : LexesAs stop text lexemes) (h' : LexesAs stop' text' more)
    (hc : text'.toList.head? = some c) (hstop : stop c = true) :
    LexesAs stop' (text ++ text') (lexemes ++ more) := by
  refine h.append h' fun rest _ d hd => ?_
  rw [head?_append, hc] at hd
  cases hd
  exact hstop

theorem LexesAs.and (h : LexesAs anything text lexemes) (h' : LexesAs stop' text' more) :
    LexesAs stop' (text ++ text') (lexemes ++ more) := h.append h' fun _ _ _ _ => rfl

end Lex

/-! ## Words, numerals, strings -/

section

variable {cs rest : List Char} {stop : Char → Bool}

theorem LexState.run_step {s s₁ s₂ : LexState} {c : Char} {more : List Lexeme}
    (h : s.step c = some ([], s₁)) (h' : s₁.run cs = some (more, s₂)) :
    s.run (c :: cs) = some (more, s₂) := by
  rw [run, h]
  simp [h']

theorem LexState.run_append {s s₁ s₂ : LexState} {lexemes more : List Lexeme}
    (h : s.run cs = some (lexemes, s₁)) (h' : s₁.run rest = some (more, s₂)) :
    s.run (cs ++ rest) = some (lexemes ++ more, s₂) := by
  induction cs generalizing s lexemes with
  | nil =>
    cases h
    exact h'
  | cons c cs ih =>
    obtain ⟨⟨first, s'⟩, hstep, h⟩ := bind_eq_some_iff.1 h
    obtain ⟨⟨others, s''⟩, hrun, h⟩ := bind_eq_some_iff.1 h
    cases h
    rw [cons_append, run, hstep]
    simp [ih hrun]

theorem run_blanks (h : ∀ c ∈ cs, isBlank c = true) :
    LexState.blank.run cs = some ([], .blank) := by
  induction cs with
  | nil => rfl
  | cons c cs ih =>
    have hc : c = ' ' ∨ c = '\t' ∨ c = '\n' ∨ c = '\r' := by
      simpa [isBlank] using h c mem_cons_self
    have hstep : LexState.blank.step c = some ([], .blank) := by
      rcases hc with rfl | rfl | rfl | rfl <;> rfl
    exact LexState.run_step hstep (ih fun c hc => h c (.tail _ hc))

theorem run_word {chars : List Char} (h : ∀ c ∈ cs, isNamePart c = true) :
    (LexState.word chars).run cs = some ([], .word (chars ++ cs)) := by
  induction cs generalizing chars with
  | nil => rw [append_nil, LexState.run]
  | cons c cs ih =>
    have hstep : (LexState.word chars).step c = some ([], .word (chars ++ [c])) :=
      if_pos (h c mem_cons_self)
    rw [append_cons]
    exact LexState.run_step hstep (ih fun c hc => h c (.tail _ hc))

theorem lexesAs_word {name : String} (h : isName name = true) :
    LexesAs endsWord name [.word name] := by
  have hrun : LexState.blank.run name.toList = some ([], .word name.toList) := by
    unfold isName at h
    split at h
    · cases h
    · rename_i c cs hname
      have hparts : isNameStart c = true ∧ ∀ c ∈ cs, isNamePart c = true := by simpa using h
      have hstep : LexState.blank.step c = some ([], .word [c]) := by
        simp [LexState.step, LexState.next, LexState.begin?, LexState.finish, hparts.1]
      rw [hname]
      exact LexState.run_step hstep (run_word hparts.2)
  have hfinish : (LexState.word name.toList).finish = some [.word name] :=
    congrArg (fun text => some [Lexeme.word text]) String.ofList_toList
  refine lexesAs_of_run hrun hfinish fun c hc => if_neg ?_
  simpa [endsWord] using hc

theorem step_number {n' : NumeralScan} {c : Char} (htakes : n.takes c = true)
    (hstep : n.step? c = some n') : (LexState.number n).step c = some ([], .number n') := by
  simp [LexState.step, htakes, hstep]

/-- Digits keep the part of a numeral that has been reached. -/
theorem run_number (hn : ∀ c : Char, c.isDigit = true → n.step? c = some n) (h : Digits cs) :
    (LexState.number n).run cs = some ([], .number n) := by
  induction cs with
  | nil => rfl
  | cons c cs ih =>
    have hc : c.isDigit = true := h c mem_cons_self
    have htakes : n.takes c = true := by simp [NumeralScan.takes, isNamePart, hc]
    exact LexState.run_step (step_number htakes (hn c hc)) (ih fun c hc => h c (.tail _ hc))

theorem run_whole (h : Digits cs) (hne : cs ≠ []) :
    LexState.blank.run cs = some ([], .number .whole) := by
  cases cs with
  | nil => exact absurd rfl hne
  | cons c =>
    have hc : c.isDigit = true := h c mem_cons_self
    have hstep : LexState.blank.step c = some ([], .number .whole) := by
      simp [LexState.step, LexState.next, LexState.begin?, LexState.finish,
        isNameStart_of_isDigit hc, hc]
    exact LexState.run_step hstep (run_number (fun c hc => if_pos hc) fun c hc => h c (.tail _ hc))

theorem run_fraction (h : IsFraction cs) :
    ∃ n, (LexState.number .whole).run cs = some ([], .number n) ∧ (n = .whole ∨ n = .fraction) := by
  obtain rfl | ⟨ds, rfl, hds⟩ := h
  · exact ⟨.whole, rfl, .inl rfl⟩
  · refine ⟨.fraction, ?_, .inr rfl⟩
    have hpoint : (LexState.number .whole).step '.' = some ([], .number .fraction) := rfl
    exact LexState.run_step hpoint (run_number (fun c hc => if_pos hc) hds)

theorem run_exponent (hn : n = .whole ∨ n = .fraction) (h : IsExponent cs) :
    ∃ n', (LexState.number n).run cs = some ([], .number n') ∧ n'.isComplete = true := by
  obtain rfl | ⟨sign, ds, rfl, hsign, hne, hds⟩ := h
  · refine ⟨n, rfl, ?_⟩
    obtain rfl | rfl := hn <;> rfl
  · refine ⟨.exponent, ?_, rfl⟩
    have hmark : (LexState.number n).step 'e' = some ([], .number .mark) := by
      obtain rfl | rfl := hn <;> rfl
    have hsigned : (LexState.number .mark).step sign = some ([], .number .sign) := by
      obtain rfl | rfl := hsign <;> rfl
    cases ds with
    | nil => exact absurd rfl hne
    | cons d ds =>
      have hd : d.isDigit = true := hds d mem_cons_self
      have htakes : NumeralScan.sign.takes d = true := by simp [NumeralScan.takes, isNamePart, hd]
      have hfirst : (LexState.number .sign).step d = some ([], .number .exponent) :=
        step_number htakes (if_pos hd)
      have hothers : (LexState.number .exponent).run ds = some ([], .number .exponent) :=
        run_number (fun c hc => if_pos hc) fun c hc => hds c (.tail _ hc)
      exact LexState.run_step hmark (LexState.run_step hsigned (LexState.run_step hfirst hothers))

theorem lexesAs_numeral {text : String} (h : IsNumeral text.toList) :
    LexesAs endsExp text [.number] := by
  obtain ⟨whole, fraction, exponent, htext, hne, hwhole, hfraction, hexponent⟩ := h
  obtain ⟨n, hn, hpart⟩ := run_fraction hfraction
  obtain ⟨n', hn', hcomplete⟩ := run_exponent hpart hexponent
  have hrun : LexState.blank.run text.toList = some ([], .number n') := by
    rw [htext]
    exact LexState.run_append (LexState.run_append (run_whole hwhole hne) hn) hn'
  have hfinish : (LexState.number n').finish = some [.number] := if_pos hcomplete
  refine lexesAs_of_run hrun hfinish fun c hc => if_neg ?_
  have hcases : c = ' ' ∨ c = ')' ∨ c = ',' ∨ c = ']' ∨ c = '\x7d' ∨ c = '\n' := by
    simpa [endsExp] using hc
  rcases hcases with rfl | rfl | rfl | rfl | rfl | rfl <;>
    simp [NumeralScan.takes, isNamePart, isNameStart]

theorem lex_shortString {s : StringScan} {units : List Char}
    (h : shortString Char.toNat asciiChar? s cs = some (units, rest)) :
    lex (.string s) cs = (lex .blank rest).map ([.string] ++ ·) := by
  induction cs generalizing s units with
  | nil => cases h
  | cons c cs ih =>
    -- What the reader of strings goes on with, the lexer goes on with.
    have goOn {s' : StringScan} {f : List Char × List Char → List Char}
        (hstep : (LexState.string s).step c = some ([], .string s'))
        (h : (shortString Char.toNat asciiChar? s' cs).map (fun r => (f r, r.2)) =
          some (units, rest)) :
        lex (.string s) (c :: cs) = (lex .blank rest).map ([.string] ++ ·) := by
      obtain ⟨r, hr, h⟩ := map_eq_some_iff.1 h
      cases h
      rw [lex_step hstep, ih hr, map_append_lexemes]
      rfl
    rw [shortString] at h
    split at h
    · rename_i htake
      exact goOn (by simp only [LexState.step, htake]) h
    · rename_i htake
      split at h
      · cases h
      · rename_i hfinish
        split at h
        · rename_i hquote
          cases h
          exact lex_step (by simp only [LexState.step, htake, hfinish, if_pos hquote])
        · rename_i hquote
          split at h
          · cases h
          · rename_i hbreak
            split at h
            · rename_i hescape
              refine goOn ?_ h
              simp only [LexState.step, htake, hfinish, if_neg hquote, if_neg hbreak,
                if_pos hescape]
            · rename_i hescape
              refine goOn ?_ h
              simp only [LexState.step, htake, hfinish, if_neg hquote, if_neg hbreak,
                if_neg hescape]

theorem lexesAs_quote (text : String) : LexesAs stop (quote text) [.string] := by
  intro rest _
  obtain ⟨body, hquote, hread⟩ := charUnits.shortString_quoteUnits text.toList rest
  have hstep : LexState.blank.step '"' = some ([], .string .plain) := rfl
  rw [quote, String.toList_ofList, hquote, id, cons_append, lex_step hstep,
    lex_shortString hread, map_append_lexemes]
  rfl

end

section

variable (text : String) (lexemes : List Lexeme) (chars : List Char)
  (hrun : LexState.blank.run text.toList = some (lexemes, .sign chars))
include text lexemes chars hrun

/-- A sign ends where no longer one begins. -/
theorem lexesAs_sign {stop : Char → Bool}
    (h : ∀ c, stop c = true → c ∉ signExtensions chars ∧ signRefuses chars c = false) :
    LexesAs stop text (lexemes ++ [.sign (String.ofList chars)]) := by
  refine lexesAs_of_run hrun rfl fun c hc => ?_
  obtain ⟨hextensions, hrefuses⟩ := h c hc
  simp [LexState.step, hextensions, hrefuses]

theorem lexesAs_closedSign {stop : Char → Bool}
    (hextensions : signExtensions chars = []) (hrefuses : ∀ c, signRefuses chars c = false) :
    LexesAs stop text (lexemes ++ [.sign (String.ofList chars)]) := by
  refine lexesAs_sign text lexemes chars hrun fun c _ => ⟨?_, hrefuses c⟩
  rw [hextensions]
  exact not_mem_nil

end

theorem lexesAs_endWord (text : String) (lexemes : List Lexeme) (chars : List Char)
    (hrun : LexState.blank.run text.toList = some (lexemes, .word chars)) :
    LexesAs endsWord text (lexemes ++ [.word (String.ofList chars)]) :=
  lexesAs_of_run hrun rfl fun c hc => if_neg (by simpa [endsWord] using hc)

end LuaBackend.Lua
