import LuaBackend.Proofs.Emit.Results
import LuaBackend.Proofs.Emit.Writing
import LuaBackend.Proofs.Lua.Strings

/-!
# Code given as text

A call of `__lua__` gives code as text, and a number in braces in it
stands for the argument with that number. `Filled` says what the text
should be: numbers that an argument has give way to the argument, and
everything else is copied. The number is read into 64 bits, and the
position of its argument is one more. So the text is as it should be if no
number in braces comes near `2 ^ 64`; otherwise writing fails, or the code
itself takes the place of the number.
-/

namespace LuaBackend.Emit

open Emission List

variable {plain : List Char} {fault : Fault}

/-- A row of decimal digits. -/
structure IsNumber (digits : List Char) : Prop where
  ne_nil : digits ≠ []
  digit : ∀ c ∈ digits, c.isDigit = true

def numberValue (digits : List Char) : Nat := Nat.ofDigitChars 10 digits 0

def braced (digits : List Char) : List Char := '\x7b' :: (digits ++ ['\x7d'])

def BeginsNumber (code : List Char) : Prop :=
  ∃ digits rest, IsNumber digits ∧ code = braced digits ++ rest

/-- What code becomes with its placeholders filled in, and the next label
before and after. Each placeholder writes its argument anew. -/
inductive Filled (args : List Expr) (scope : Scope) (layout : Lua.Layout) :
    List Char → UInt32 → String → UInt32 → Prop
  | done {n} : Filled args scope layout [] n "" n
  /-- A number that an argument has. -/
  | argument {digits rest e v n n₁ text n'} : IsNumber digits →
      args[numberValue digits]? = some e → valueOf e scope n = .ok v n₁ →
      Filled args scope layout rest n₁ text n' →
      Filled args scope layout (braced digits ++ rest) n (v.text layout ++ text) n'
  /-- A number that no argument has. -/
  | number {digits rest n text n'} : IsNumber digits → args.length ≤ numberValue digits →
      Filled args scope layout rest n text n' →
      Filled args scope layout (braced digits ++ rest) n (.ofList (braced digits) ++ text) n'
  /-- A character that begins no number in braces. -/
  | char {c rest n text n'} : ¬ BeginsNumber (c :: rest) → Filled args scope layout rest n text n' →
      Filled args scope layout (c :: rest) n (.singleton c ++ text) n'

def NumbersFit (code : List Char) : Prop :=
  ∀ digits, IsNumber digits → braced digits <:+: code → numberValue digits + 1 < UInt64.size

variable {digits rest : List Char} {c : Char}

theorem IsNumber.ne_brace (h : IsNumber digits) (hc : c ∈ digits) : c ≠ '\x7b' ∧ c ≠ '\x7d' := by
  have hdigit := h.digit c hc
  constructor <;> rintro rfl <;> exact absurd hdigit (by decide)

theorem IsNumber.bracedDigits? (h : IsNumber digits) (rest : List Char) :
    bracedDigits? (digits ++ '\x7d' :: rest) = some digits := by
  have hinside : (digits ++ '\x7d' :: rest).takeWhile (· ≠ '\x7d') = digits := by
    rw [takeWhile_append_of_pos fun c hc => decide_eq_true (h.ne_brace hc).2]
    exact append_nil digits
  have hall : digits.all Char.isDigit = true := all_eq_true.2 h.digit
  have hempty : digits.isEmpty = false := isEmpty_eq_false_iff.2 h.ne_nil
  unfold Emit.bracedDigits?
  dsimp only
  rw [hinside, hall, hempty]
  exact if_pos (by simp)

theorem beginsNumber_of_bracedDigits? (h : bracedDigits? rest = some digits) :
    BeginsNumber ('\x7b' :: rest) := by
  unfold Emit.bracedDigits? at h
  dsimp only at h
  split at h
  · rename_i hcond
    cases h
    simp only [Bool.and_eq_true, Bool.not_eq_true', decide_eq_true_eq] at hcond
    obtain ⟨⟨hlength, hempty⟩, hall⟩ := hcond
    have hsplit := @takeWhile_append_dropWhile _ (· ≠ '\x7d') rest
    have hstop := head?_dropWhile_not (· ≠ '\x7d') rest
    refine ⟨_, (rest.dropWhile (· ≠ '\x7d')).tail, ⟨isEmpty_eq_false_iff.1 hempty,
      all_eq_true.1 hall⟩, ?_⟩
    cases hdrop : rest.dropWhile (· ≠ '\x7d') with
    | nil =>
      rw [hdrop, append_nil] at hsplit
      rw [hsplit] at hlength
      exact absurd hlength (Nat.lt_irrefl _)
    | cons d =>
      rw [hdrop] at hsplit hstop
      have hd : d = '\x7d' := by simpa using hstop
      rw [hd] at hsplit
      rw [braced, cons_append, append_assoc]
      exact congrArg _ hsplit.symm
  · cases h

/-- Code is made of numbers in braces and other characters. -/
theorem code_induction {P : List Char → Prop} (nil : P [])
    (number : ∀ digits rest, IsNumber digits → P rest → P (braced digits ++ rest))
    (char : ∀ c rest, ¬ BeginsNumber (c :: rest) → P rest → P (c :: rest)) (code : List Char) :
    P code := by
  induction hn : code.length using Nat.strongRecOn generalizing code with
  | ind n ih =>
    subst hn
    cases code with
    | nil => exact nil
    | cons c rest =>
      by_cases h : BeginsNumber (c :: rest)
      · obtain ⟨digits, tail, hdigits, heq⟩ := h
        rw [heq] at ih ⊢
        refine number digits tail hdigits (ih _ ?_ tail rfl)
        simp only [braced, cons_append, length_cons, length_append]
        omega
      · exact char c rest h (ih _ (Nat.lt_succ_self _) rest rfl)

theorem numbersFit_char (hc : ¬ BeginsNumber (c :: rest)) (h : NumbersFit rest) :
    NumbersFit (c :: rest) := by
  intro digits hdigits hin
  rcases infix_cons_iff.1 hin with ⟨tail, heq⟩ | hin
  · exact absurd ⟨digits, tail, hdigits, heq.symm⟩ hc
  · exact h digits hdigits hin

theorem numbersFit_plain (hplain : '\x7b' ∉ plain) (h : NumbersFit rest) :
    NumbersFit (plain ++ rest) := by
  induction plain with
  | nil => exact h
  | cons c plain ih =>
    rw [mem_cons, not_or] at hplain
    refine numbersFit_char ?_ (ih hplain.2)
    rintro ⟨digits, tail, -, heq⟩
    exact hplain.1 (cons.inj heq).1.symm

theorem IsNumber.ne_brace_of_mem (h : IsNumber digits) : ∀ c ∈ digits ++ ['\x7d'], c ≠ '\x7b' := by
  intro c hc
  rcases mem_append.1 hc with hc | hc
  · exact (h.ne_brace hc).1
  · rw [mem_singleton.1 hc]
    decide

theorem braced_append (digits rest : List Char) :
    braced digits ++ rest = '\x7b' :: (digits ++ '\x7d' :: rest) := by simp [braced]

/-- A number fits if its value leaves room for one more. -/
theorem numbersFit_number_iff (hdigits : IsNumber digits) :
    NumbersFit (braced digits ++ rest) ↔ numberValue digits + 1 < UInt64.size ∧ NumbersFit rest := by
  constructor
  · intro h
    refine ⟨h digits hdigits ⟨[], rest, rfl⟩, fun other hother hin => h other hother ?_⟩
    exact hin.trans (suffix_append _ _).isInfix
  · rintro ⟨hvalue, h⟩ other hother hin
    rcases infix_cons_iff.1 (braced_append digits rest ▸ hin) with ⟨tail, heq⟩ | hin
    · -- Digits and the next closing brace tell where a number ends.
      rw [braced_append, cons.injEq] at heq
      have hsame := hother.bracedDigits? tail
      rw [heq.2, hdigits.bracedDigits?] at hsame
      cases hsame
      exact hvalue
    · have hplain := numbersFit_plain (fun hmem => hdigits.ne_brace_of_mem _ hmem rfl) h
      rw [append_assoc] at hplain
      exact hplain other hother hin

def numberPieces (args : Nat) (digits : List Char) : List CodePiece :=
  let position := (numberValue digits + 1) % UInt64.size
  if UInt64.size ≤ numberValue digits then .overflow :: (digits ++ ['\x7d']).map .char
  else if position < args then [.arg position]
  else (braced digits).map .char

section Pieces

variable {args : Nat}

theorem codePieces_char (h : ¬ BeginsNumber (c :: rest)) :
    codePieces args 0 (c :: rest) = .char c :: codePieces args 0 rest := by
  rw [codePieces]
  split
  · rename_i hbrace
    split
    · rfl
    · rename_i digits hdigits
      exact absurd (hbrace ▸ beginsNumber_of_bracedDigits? hdigits) h
  · rfl

theorem codePieces_skip (skipped rest : List Char) :
    codePieces args skipped.length (skipped ++ rest) = codePieces args 0 rest := by
  induction skipped with
  | nil => rfl
  | cons c skipped ih => exact ih

theorem codePieces_plain (h : ∀ c ∈ plain, c ≠ '\x7b') :
    codePieces args 0 (plain ++ rest) = plain.map .char ++ codePieces args 0 rest := by
  induction plain with
  | nil => rfl
  | cons c plain ih =>
    rw [forall_mem_cons] at h
    rw [cons_append, codePieces, if_neg h.1, ih h.2]
    rfl

/-- A number in braces becomes its pieces. -/
theorem IsNumber.codePieces (h : IsNumber digits) (rest : List Char) :
    codePieces args 0 (braced digits ++ rest) =
      numberPieces args digits ++ codePieces args 0 rest := by
  have hplain : Emit.codePieces args 0 (digits ++ '\x7d' :: rest) =
      (digits ++ ['\x7d']).map .char ++ Emit.codePieces args 0 rest := by
    rw [← codePieces_plain h.ne_brace_of_mem, append_assoc]
    rfl
  have hskip : Emit.codePieces args (digits.length + 1) (digits ++ '\x7d' :: rest) =
      Emit.codePieces args 0 rest := by
    have := @codePieces_skip args (digits ++ ['\x7d']) rest
    rwa [length_append, append_assoc] at this
  have hvalue : digitsValue digits = numberValue digits := rfl
  rw [braced_append, Emit.codePieces, if_pos rfl, h.bracedDigits? rest]
  unfold numberPieces
  dsimp only
  rw [hplain, hskip, hvalue]
  split
  · rfl
  · split <;> rfl

end Pieces

/-- Two steps fail in the first one or in the second one. -/
theorem error_of_bind {α β : Type} {act : EmitM α} {f : α → EmitM β} {scope : Scope} {n n' : UInt32}
    (h : (act >>= f) scope n = .error fault n') :
    act scope n = .error fault n' ∨
      ∃ a n₁, act scope n = .ok a n₁ ∧ f a scope n₁ = .error fault n' := by
  cases hact : act scope n with
  | ok a n₁ =>
    rw [bind_of_ok hact] at h
    exact .inr ⟨a, n₁, rfl, h⟩
  | error =>
    rw [bind_of_error hact] at h
    cases h
    exact .inl rfl

def Pasted (args : List Emission) (scope : Scope) (layout : Lua.Layout) (pieces : List CodePiece)
    (n : UInt32) (text : String) (n' : UInt32) : Prop :=
  ∃ out, fillCode args pieces scope n = .ok out n' ∧ Lua.Expr.piecesText layout out = text

section Pasted

variable {args : List Emission} {scope : Scope} {layout : Lua.Layout}
variable {text : String} {n n' : UInt32}

theorem piecesText_append (out more : List (Lua.Piece Lua.Expr)) :
    Lua.Expr.piecesText layout (out ++ more) =
      Lua.Expr.piecesText layout out ++ Lua.Expr.piecesText layout more := by
  induction out with
  | nil => exact (String.empty_append).symm
  | cons piece out ih =>
    cases piece with
    | text text | code text =>
      change _ ++ Lua.Expr.piecesText layout (out ++ more) = _ ++ _ ++ _
      rw [ih, String.append_assoc]

theorem fillCode_append (pieces more : List CodePiece) : fillCode args (pieces ++ more) = do
    let out ← fillCode args pieces
    return out ++ (← fillCode args more) := by
  induction pieces with
  | nil => simp [fillCode]
  | cons piece pieces ih =>
    cases piece with
    | overflow => rfl
    | char => simp [fillCode, ih]
    | arg position =>
      rw [cons_append, fillCode, fillCode, ih]
      cases args[position]? with
      | none => rfl
      | some => simp

/-- Pieces are written one after the other. -/
theorem pasted_append_iff (pieces more : List CodePiece) :
    Pasted args scope layout (pieces ++ more) n text n' ↔
      ∃ first n₁ last, Pasted args scope layout pieces n first n₁ ∧
        Pasted args scope layout more n₁ last n' ∧ text = first ++ last := by
  constructor
  · rintro ⟨out, hout, rfl⟩
    rw [fillCode_append] at hout
    obtain ⟨first, n₁, hfirst, hout⟩ := exists_of_bind hout
    obtain ⟨last, n₂, hlast, hout⟩ := exists_of_bind hout
    cases hout
    exact ⟨_, _, _, ⟨first, hfirst, rfl⟩, ⟨last, hlast, rfl⟩, piecesText_append first last⟩
  · rintro ⟨_, n₁, _, ⟨first, hfirst, rfl⟩, ⟨last, hlast, rfl⟩, rfl⟩
    refine ⟨first ++ last, ?_, piecesText_append first last⟩
    rw [fillCode_append, bind_of_ok hfirst, bind_of_ok hlast]
    rfl

theorem fillCode_chars (cs : List Char) : fillCode args (cs.map .char) scope n =
    .ok (cs.map fun c => .text (.singleton c)) n := by
  induction cs with
  | nil => rfl
  | cons c cs ih =>
    rw [map_cons, fillCode, bind_of_ok ih]
    rfl

theorem pasted_chars_iff (cs : List Char) :
    Pasted args scope layout (cs.map .char) n text n' ↔ text = .ofList cs ∧ n' = n := by
  have htext : Lua.Expr.piecesText layout (cs.map fun c => .text (.singleton c)) = .ofList cs := by
    induction cs with
    | nil => rfl
    | cons c cs ih =>
      change String.singleton c ++ Lua.Expr.piecesText layout _ = _
      rw [ih, String.ofList_cons]
  unfold Pasted
  rw [fillCode_chars]
  constructor
  · rintro ⟨_, h, rfl⟩
    cases h
    exact ⟨htext, rfl⟩
  · rintro ⟨rfl, rfl⟩
    exact ⟨_, rfl, htext⟩

/-- An argument is written as its value. -/
theorem pasted_arg_iff {position : Nat} {e : Emission} (h : args[position]? = some e) :
    Pasted args scope layout [.arg position] n text n' ↔
      ∃ v, e.value scope n = .ok v n' ∧ text = v.text layout := by
  have hfill : fillCode args [.arg position] = e.value >>= fun v => pure [.code v] := by
    simp [fillCode, h]
  have htext (v : Lua.Expr) : Lua.Expr.piecesText layout [.code v] = v.text layout :=
    String.append_empty
  unfold Pasted
  rw [hfill]
  constructor
  · rintro ⟨_, hout, rfl⟩
    obtain ⟨v, n₁, hv, hout⟩ := exists_of_bind hout
    cases hout
    exact ⟨v, hv, htext v⟩
  · rintro ⟨v, hv, rfl⟩
    exact ⟨[.code v], bind_of_ok hv, htext v⟩

theorem not_pasted_overflow {pieces : List CodePiece} :
    ¬ Pasted args scope layout (.overflow :: pieces) n text n' := by
  rintro ⟨out, hout, -⟩
  cases hout

end Pasted

theorem NumbersFit.tail (h : NumbersFit (c :: rest)) : NumbersFit rest :=
  fun digits hdigits hin => h digits hdigits (hin.trans (suffix_cons c rest).isInfix)

section Calls

variable {args : List Expr} {code e : Expr} {scope : Scope} {layout : Lua.Layout} {cs : List Char}
variable {text : String} {n n' : UInt32}

theorem getElem?_emitList (h : args[numberValue digits]? = some e) :
    (emitList (code :: args))[numberValue digits + 1]? = some (emit e) := by
  rw [emitList_eq_map, map_cons, getElem?_cons_succ, getElem?_map, h]
  rfl

/-- A number that fits stands for its argument or for itself. -/
theorem numberPieces_eq (h : numberValue digits + 1 < UInt64.size) :
    numberPieces (args.length + 1) digits =
      if numberValue digits < args.length then [.arg (numberValue digits + 1)]
      else (braced digits).map .char := by
  unfold numberPieces
  dsimp only
  rw [if_neg (by omega), Nat.mod_eq_of_lt h]
  simp only [Nat.add_lt_add_iff_right]

/-- The position after the last number of 64 bits is zero. -/
theorem numberPieces_zero (h : numberValue digits + 1 = UInt64.size) :
    numberPieces (args.length + 1) digits = [.arg 0] := by
  unfold numberPieces
  dsimp only
  rw [if_neg (by omega), h, Nat.mod_self, if_pos (Nat.succ_pos _)]

/-- Where numbers fit, what is written is as it should be. -/
theorem filled_of_pasted (hfit : NumbersFit cs)
    (h : Pasted (emitList (code :: args)) scope layout (codePieces (args.length + 1) 0 cs) n text
      n') : Filled args scope layout cs n text n' := by
  induction cs using code_induction generalizing n text with
  | nil =>
    obtain ⟨rfl, rfl⟩ := (pasted_chars_iff []).1 h
    exact .done
  | char c rest hc ih =>
    rw [codePieces_char hc] at h
    obtain ⟨first, n₁, last, hfirst, hlast, rfl⟩ := (pasted_append_iff [.char c] _).1 h
    obtain ⟨rfl, rfl⟩ := (pasted_chars_iff [c]).1 hfirst
    exact .char hc (ih hfit.tail hlast)
  | number digits rest hdigits ih =>
    obtain ⟨hvalue, hrest⟩ := (numbersFit_number_iff hdigits).1 hfit
    rw [hdigits.codePieces, numberPieces_eq hvalue] at h
    obtain ⟨first, n₁, last, hfirst, hlast, rfl⟩ := (pasted_append_iff _ _).1 h
    split at hfirst
    · rename_i hlt
      have harg := getElem?_eq_getElem hlt
      obtain ⟨v, hv, rfl⟩ := (pasted_arg_iff (getElem?_emitList harg)).1 hfirst
      exact .argument hdigits harg hv (ih hrest hlast)
    · obtain ⟨rfl, rfl⟩ := (pasted_chars_iff _).1 hfirst
      exact .number hdigits (by omega) (ih hrest hlast)

theorem pasted_of_filled (hfit : NumbersFit cs) (h : Filled args scope layout cs n text n') :
    Pasted (emitList (code :: args)) scope layout (codePieces (args.length + 1) 0 cs) n text n' := by
  induction h with
  | done => exact (pasted_chars_iff []).2 ⟨rfl, rfl⟩
  | char hc _ ih =>
    rw [codePieces_char hc]
    exact (pasted_append_iff [.char _] _).2 ⟨_, _, _, (pasted_chars_iff [_]).2 ⟨rfl, rfl⟩,
      ih hfit.tail, rfl⟩
  | argument hdigits harg hv _ ih =>
    obtain ⟨hvalue, hrest⟩ := (numbersFit_number_iff hdigits).1 hfit
    rw [hdigits.codePieces, numberPieces_eq hvalue, if_pos (List.getElem?_eq_some_iff.1 harg).1]
    exact (pasted_append_iff _ _).2 ⟨_, _, _, (pasted_arg_iff (getElem?_emitList harg)).2
      ⟨_, hv, rfl⟩, ih hrest, rfl⟩
  | number hdigits hnone _ ih =>
    obtain ⟨hvalue, hrest⟩ := (numbersFit_number_iff hdigits).1 hfit
    rw [hdigits.codePieces, numberPieces_eq hvalue, if_neg (by omega)]
    exact (pasted_append_iff _ _).2 ⟨_, _, _, (pasted_chars_iff _).2 ⟨rfl, rfl⟩, ih hrest, rfl⟩

/-- Where numbers fit, only writing an argument can fail. -/
theorem exists_of_fillCode_error (hfit : NumbersFit cs)
    (h : (fillCode (emitList (code :: args)) (codePieces (args.length + 1) 0 cs) : EmitM _) scope
      n =
      .error fault n') : ∃ a ∈ args, ∃ m, valueOf a scope m = .error fault n' := by
  induction cs using code_induction generalizing n with
  | nil => cases h
  | char c rest hc ih =>
    rw [codePieces_char hc] at h
    rcases error_of_bind h with h | ⟨_, _, _, h⟩
    · exact ih hfit.tail h
    · cases h
  | number digits rest hdigits ih =>
    obtain ⟨hvalue, hrest⟩ := (numbersFit_number_iff hdigits).1 hfit
    rw [hdigits.codePieces, numberPieces_eq hvalue, fillCode_append] at h
    rcases error_of_bind h with h | ⟨first, n₁, -, h⟩
    · split at h
      · rename_i hlt
        have harg := getElem?_eq_getElem hlt
        rw [fillCode, getElem?_emitList harg] at h
        rcases error_of_bind h with h | ⟨_, _, _, h⟩
        · exact ⟨_, getElem_mem hlt, n, h⟩
        · cases h
      · rw [fillCode_chars] at h
        cases h
    · rcases error_of_bind h with h | ⟨_, _, _, h⟩
      · exact ih hrest h
      · cases h

theorem length_le_flatMap {f : Char → List Char} (h : ∀ c, f c ≠ []) (cs : List Char) :
    cs.length ≤ (cs.flatMap f).length := by
  induction cs with
  | nil => exact Nat.le_refl _
  | cons c =>
    have hc := length_pos_iff.2 (h c)
    rw [flatMap_cons, length_append, length_cons]
    omega

theorem length_lt_quote (text : String) : text.length < (Lua.quote text).length := by
  rw [Lua.quote, Lua.quoteUnits, String.length_ofList, length_cons, length_append,
    ← String.length_toList, Nat.lt_succ_iff]
  refine Nat.le_trans (length_le_flatMap (fun c => ?_) _) (Nat.le_add_right _ _)
  split
  · rename_i escape hescape
    obtain ⟨-, ⟨letter, rfl, -⟩ | rfl⟩ := Lua.escape?_cases hescape
    · exact cons_ne_nil _ _
    · exact cons_ne_nil _ _
  · exact cons_ne_nil _ _

/-- The code, written as an argument, is longer than its text. -/
theorem length_of_stringConst? : ∀ {code : Expr} {v : Lua.Expr} {n' : UInt32},
    code.stringConst? = some text → valueOf code scope n = .ok v n' →
      n' = n ∧ text.length < (v.text layout).length
  | .const _ _ (.string text), _, _, h, hv => by
    cases h
    cases hv
    exact ⟨rfl, length_lt_quote text⟩
  | .paren loc type inner, _, _, h, hv => by
    obtain ⟨w, n₁, hw, hv⟩ := exists_of_bind hv
    cases hv
    obtain ⟨rfl, hlt⟩ := @length_of_stringConst? inner _ _ h hw
    have htext : (Lua.Expr.paren w).text layout = "(" ++ w.text layout ++ ")" := rfl
    rw [htext, String.length_append, String.length_append]
    exact ⟨rfl, by omega⟩
  | .annot _ _ _ inner, _, _, h, hv => @length_of_stringConst? inner _ _ h hv

/-- A text as it should be is no longer than the one that is written, and
shorter where a number does not fit. -/
theorem length_le_of_pasted {whole : String} (hcode : code.stringConst? = some whole)
    (hargs : args.length + 1 < UInt64.size) (h : Filled args scope layout cs n text n') :
    ∀ {text' : String} {m' : UInt32}, cs.length ≤ whole.length →
      Pasted (emitList (code :: args)) scope layout (codePieces (args.length + 1) 0 cs) n text' m' →
      text.length ≤ text'.length ∧ (text.length = text'.length → NumbersFit cs) := by
  induction h with
  | done => exact fun _ _ => ⟨Nat.zero_le _, fun _ digits _ hin => by simp [braced] at hin⟩
  | char hc _ ih =>
    intro text' m' hcs hp
    rw [codePieces_char hc] at hp
    obtain ⟨first, n₁, last, hfirst, hlast, rfl⟩ := (pasted_append_iff [.char _] _).1 hp
    obtain ⟨rfl, rfl⟩ := (pasted_chars_iff [_]).1 hfirst
    obtain ⟨hle, hfit⟩ := ih (Nat.le_of_succ_le hcs) hlast
    rw [String.length_append, String.length_append, String.length_singleton, String.length_ofList]
    exact ⟨Nat.add_le_add_left hle _, fun h => numbersFit_char hc (hfit (Nat.add_left_cancel h))⟩
  | argument hdigits harg hv _ ih =>
    intro text' m' hcs hp
    have hlt := (List.getElem?_eq_some_iff.1 harg).1
    have hvalue : numberValue _ + 1 < UInt64.size := Nat.lt_trans (Nat.succ_lt_succ hlt) hargs
    rw [hdigits.codePieces, numberPieces_eq hvalue, if_pos hlt] at hp
    obtain ⟨first, n₁, last, hfirst, hlast, rfl⟩ := (pasted_append_iff _ _).1 hp
    obtain ⟨w, hw, rfl⟩ := (pasted_arg_iff (getElem?_emitList harg)).1 hfirst
    cases hv.symm.trans hw
    rw [length_append] at hcs
    obtain ⟨hle, hfit⟩ := ih (by omega) hlast
    rw [String.length_append, String.length_append]
    exact ⟨Nat.add_le_add_left hle _, fun h =>
      (numbersFit_number_iff hdigits).2 ⟨hvalue, hfit (Nat.add_left_cancel h)⟩⟩
  | number hdigits hnone _ ih =>
    intro text' m' hcs hp
    rw [length_append] at hcs
    rw [hdigits.codePieces] at hp
    obtain ⟨first, n₁, last, hfirst, hlast, rfl⟩ := (pasted_append_iff _ _).1 hp
    rw [String.length_append, String.length_append, String.length_ofList]
    rcases Nat.lt_trichotomy (numberValue _ + 1) UInt64.size with hvalue | hvalue | hvalue
    · rw [numberPieces_eq hvalue, if_neg (by omega)] at hfirst
      obtain ⟨rfl, rfl⟩ := (pasted_chars_iff _).1 hfirst
      obtain ⟨hle, hfit⟩ := ih (by omega) hlast
      rw [String.length_ofList]
      exact ⟨Nat.add_le_add_left hle _, fun h =>
        (numbersFit_number_iff hdigits).2 ⟨hvalue, hfit (Nat.add_left_cancel h)⟩⟩
    · -- The position runs over to zero, where the code itself stands.
      have hself : (emitList (code :: args))[0]? = some (emit code) := by
        rw [emitList_eq_map]
        rfl
      rw [numberPieces_zero hvalue] at hfirst
      obtain ⟨v, hv, rfl⟩ := (pasted_arg_iff hself).1 hfirst
      obtain ⟨rfl, hlt⟩ := @length_of_stringConst? scope layout whole _ code v _ hcode hv
      obtain ⟨hle, -⟩ := ih (by omega) hlast
      exact ⟨by omega, fun h => by omega⟩
    · unfold numberPieces at hfirst
      dsimp only at hfirst
      rw [if_pos (Nat.le_of_lt_succ hvalue)] at hfirst
      exact absurd hfirst not_pasted_overflow

/-! ### The text of a call -/

variable {callee : Expr} {loc : Loc} {type : Ty}

section

variable (h : codeText? callee (code :: args) = some text)
include h

theorem exists_of_codeText? :
    code.stringConst? = some text ∧ ∃ loc type, callee.bare = .ident loc type "__lua__" := by
  unfold codeText? at h
  split at h
  · split at h
    · rename_i hbare hname
      exact ⟨h, _, _, hname ▸ hbare⟩
    · cases h
  · cases h

/-- A call that gives code writes the filled pieces. -/
theorem valueOf_code : valueOf (.call loc type callee (code :: args)) = do
      return .verbatim (← fillCode (emitList (code :: args))
        (codePieces (args.length + 1) 0 text.toList)) := by
  obtain ⟨hcode, nameLoc, _, hbare⟩ := exists_of_codeText? h
  have hlength : (emitList (code :: args)).length = args.length + 1 := by
    rw [emitList_eq_map, length_map, length_cons]
  change (Emission.call loc type (emit callee) (emitList (code :: args))).value = _
  unfold Emission.call
  rw [source_emit, hbare]
  change intrinsic loc "__lua__" nameLoc (emitList (code :: args)) = _
  unfold intrinsic
  rw [if_pos rfl, head?_emitList, head?_cons, Option.bind_some, hcode, hlength]

theorem pasted_iff_valueOf {filled : String} :
    (∃ v, valueOf (.call loc type callee (code :: args)) scope n = .ok v n' ∧
      v.text layout = filled) ↔
    Pasted (emitList (code :: args)) scope layout (codePieces (args.length + 1) 0 text.toList) n
      filled n' := by
  rw [valueOf_code h]
  constructor
  · rintro ⟨v, hv, rfl⟩
    obtain ⟨out, n₁, hout, hv⟩ := exists_of_bind hv
    cases hv
    exact ⟨out, hout, rfl⟩
  · rintro ⟨out, hout, rfl⟩
    exact ⟨.verbatim out, bind_of_ok hout, rfl⟩

end

/-- A call that gives code is written as the code with its placeholders
filled in, and fails only with one of its arguments, if no number in braces
comes near `2 ^ 64`. If every argument can be written, then this is the
only case in which the call is written as it should be. -/
theorem given_code_is_filled_iff (hcode : codeText? callee (code :: args) = some text)
    (scope : Scope) (n : UInt32) :
    (NumbersFit text.toList →
      (∀ layout filled n', (∃ v, valueOf (.call loc type callee (code :: args)) scope n = .ok v n' ∧
        v.text layout = filled) ↔ Filled args scope layout text.toList n filled n') ∧
      ∀ fault n', valueOf (.call loc type callee (code :: args)) scope n = .error fault n' →
        ∃ a ∈ args, ∃ m, valueOf a scope m = .error fault n') ∧
    (args.length + 1 < UInt64.size → (∀ a ∈ args, ∀ m, ∃ v m', valueOf a scope m = .ok v m') →
      ∀ layout, (∃ v n', valueOf (.call loc type callee (code :: args)) scope n = .ok v n' ∧
        Filled args scope layout text.toList n (v.text layout) n') ↔ NumbersFit text.toList) := by
  have herror (hfit : NumbersFit text.toList) (fault n')
      (h : valueOf (.call loc type callee (code :: args)) scope n = .error fault n') :
      ∃ a ∈ args, ∃ m, valueOf a scope m = .error fault n' := by
    rw [valueOf_code hcode] at h
    rcases error_of_bind h with h | ⟨_, _, _, h⟩
    · exact exists_of_fillCode_error hfit h
    · cases h
  refine ⟨fun hfit => ⟨fun layout filled n' => (pasted_iff_valueOf hcode).trans
    ⟨filled_of_pasted hfit, pasted_of_filled hfit⟩, herror hfit⟩, fun hargs hok layout => ?_⟩
  constructor
  · rintro ⟨v, n', hv, hfilled⟩
    exact (length_le_of_pasted (exists_of_codeText? hcode).1 hargs hfilled
      (String.length_toList ▸ Nat.le_refl _) ((pasted_iff_valueOf hcode).1 ⟨v, hv, rfl⟩)).2 rfl
  · intro hfit
    cases hv : valueOf (.call loc type callee (code :: args)) scope n with
    | ok v n' =>
      exact ⟨v, n', rfl, filled_of_pasted hfit ((pasted_iff_valueOf hcode).1 ⟨v, hv, rfl⟩)⟩
    | error fault n' =>
      obtain ⟨a, ha, m, h⟩ := herror hfit fault n' hv
      obtain ⟨v, m', hok⟩ := hok a ha m
      cases h.symm.trans hok

end Calls

/-- The arguments `x` and `5`. -/
def codeArgs : List Expr := [.local {} ⟨1, "x", .int⟩, .intLit {} 5]

/-- `__lua__(text, x, 5)`. -/
def codeCall (text : String) : Expr :=
  .call {} .void (.ident {} .dynamic "__lua__") (.const {} .string (.string text) :: codeArgs)

def swapped : String := "f(\x7b1\x7d, \x7b0\x7d, \x7b2\x7d)"

theorem given_code_is_filled_iff_swapped :
    NumbersFit swapped.toList ∧ Filled codeArgs {} {} swapped.toList 1 "f(5, x, \x7b2\x7d)" 1 ∧
      ∃ v n', valueOf (codeCall swapped) {} 1 = .ok v n' ∧
        Filled codeArgs {} {} swapped.toList 1 (v.text {}) n' := by
  have hnumber (d : Char) (hd : d.isDigit = true) : IsNumber [d] :=
    ⟨cons_ne_nil _ _, forall_mem_singleton.2 hd⟩
  have hend : NumbersFit ")".toList := fun digits _ hin => by
    have hlength := hin.length_le
    simp [braced] at hlength
  have hfit : NumbersFit swapped.toList := by
    have hparts : swapped.toList = "f(".toList ++ (braced ['1'] ++ (", ".toList ++ (braced ['0'] ++
        (", ".toList ++ (braced ['2'] ++ ")".toList))))) := by decide
    rw [hparts]
    refine numbersFit_plain (by decide) ((numbersFit_number_iff (hnumber _ rfl)).2 ⟨by decide, ?_⟩)
    refine numbersFit_plain (by decide) ((numbersFit_number_iff (hnumber _ rfl)).2 ⟨by decide, ?_⟩)
    exact numbersFit_plain (by decide) ((numbersFit_number_iff (hnumber _ rfl)).2 ⟨by decide, hend⟩)
  have hargs : ∀ a ∈ codeArgs, ∀ m, ∃ v m', valueOf a {} m = .ok v m' := by
    intro a ha m
    simp only [codeArgs, mem_cons, not_mem_nil, or_false] at ha
    rcases ha with rfl | rfl <;> exact ⟨_, _, rfl⟩
  have h := @given_code_is_filled_iff codeArgs (.const {} .string (.string swapped)) swapped
    (.ident {} .dynamic "__lua__") {} .void rfl {} 1
  exact ⟨hfit, ((h.1 hfit).1 {} _ 1).1 ⟨_, rfl, by decide⟩, (h.2 (by decide) hargs {}).2 hfit⟩

/-- A number of more than 64 bits makes writing fail, and in the place of
the last number of 64 bits stands the code itself. -/
theorem given_code_numbers_overflow :
    valueOf (codeCall "\x7b18446744073709551616\x7d") {} 1 = .error .placeholderOverflow 1 ∧
      ∃ v, valueOf (codeCall "\x7b18446744073709551615\x7d") {} 1 = .ok v 1 ∧
        v.text {} = "\"\x7b18446744073709551615\x7d\"" :=
  ⟨rfl, _, rfl, rfl⟩

end LuaBackend.Emit
