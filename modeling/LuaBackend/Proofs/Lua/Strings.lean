import LuaBackend.Lua.Lexical

/-!
# Reading strings

A backslash and a letter stand for one unit, and so do a backslash and a
number of at most three digits. An unescaped quote ends the string; a line
break inside it is an error. Units are characters or bytes. What
`quoteUnits` writes is read as the units it was written from, whatever
stands behind it.
-/

namespace LuaBackend.Lua

open List

variable {c : Char} {x value n : Nat} {b : UInt8}
variable {code : Nat}

def digit? (code : Nat) : Option Nat := if 48 ≤ code ∧ code ≤ 57 then some (code - 48) else none

def escapedLetter? (code : Nat) : Option Nat :=
  ([('a', 7), ('b', 8), ('f', 12), ('n', 10), ('r', 13), ('t', 9), ('v', 11), ('"', 34),
    ('\\', 92)].find? fun p => p.1.toNat = code).map Prod.snd

/-- What has been read of an escape. -/
inductive StringScan where
  | plain
  | escape
  /-- A number, to which so many more digits may belong. -/
  | decimal (value left : Nat)

namespace StringScan

variable {α : Type} (unit : Nat → Option α)

def take? : StringScan → Nat → Option (List α × StringScan)
  | plain, _ => none
  | escape, code =>
    match digit? code with
    | some d => some ([], decimal d 2)
    | none => ((escapedLetter? code).bind unit).map fun u => ([u], plain)
  | decimal _ 0, _ => none
  | decimal value (left + 1), code => (digit? code).map fun d => ([], decimal (10 * value + d) left)

def finish? : StringScan → Option (List α)
  | plain => some []
  | escape => none
  | decimal value _ => (unit value).map ([·])

end StringScan

section

variable {α : Type} (code : α → Nat) (unit : Nat → Option α)

/-- What a string holds after its opening quote, and what stands behind its
closing one. -/
def shortString (s : StringScan) : List α → Option (List α × List α)
  | [] => none
  | u :: rest =>
    match s.take? unit (code u) with
    | some (units, s') => (shortString s' rest).map fun r => (units ++ r.1, r.2)
    | none =>
      match s.finish? unit with
      | none => none
      | some units =>
        if code u = 34 then some (units, rest)
        else if code u = 10 || code u = 13 then none
        else if code u = 92 then
          (shortString .escape rest).map fun r => (units ++ r.1, r.2)
        else (shortString .plain rest).map fun r => (units ++ u :: r.1, r.2)

end

/-! ## Quoted strings are read back -/

section Quote

variable {α : Type} {code : α → Nat} {unit : Nat → Option α} {ofChar : Char → α}
variable {rest : List α} {u a : α} {escape : List Char}

/-- Reading goes on after a unit that stands for itself. -/
theorem shortString_self (h : escape? (code u) = none) : shortString code unit .plain (u :: rest) =
    (shortString code unit .plain rest).map fun r => (u :: r.1, r.2) := by
  unfold escape? at h
  have h10 : code u ≠ 10 := fun hc => by simp [hc] at h
  have h13 : code u ≠ 13 := fun hc => by simp [hc] at h
  have h34 : code u ≠ 34 := fun hc => by simp [hc] at h
  have h92 : code u ≠ 92 := fun hc => by simp [hc] at h
  rw [shortString]
  simp [StringScan.take?, StringScan.finish?, h10, h13, h34, h92]

theorem shortString_backslash (h : code u = 92) :
    shortString code unit .plain (u :: rest) = shortString code unit .escape rest := by
  rw [shortString]
  simp [StringScan.take?, StringScan.finish?, h]

theorem shortString_letter {e : α} {v : Nat} (hd : digit? (code e) = none)
    (hl : escapedLetter? (code e) = some v) (hu : unit v = some u) :
    shortString code unit .escape (e :: rest) =
      (shortString code unit .plain rest).map fun r => (u :: r.1, r.2) := by
  rw [shortString]
  simp [StringScan.take?, hd, hl, hu]

theorem shortString_first (ha : digit? (code a) = some x) :
    shortString code unit .escape (a :: rest) = shortString code unit (.decimal x 2) rest := by
  rw [shortString]
  simp [StringScan.take?, ha]

theorem shortString_next {left : Nat} (ha : digit? (code a) = some x) :
    shortString code unit (.decimal value (left + 1)) (a :: rest) =
      shortString code unit (.decimal (10 * value + x) left) rest := by
  rw [shortString]
  simp [StringScan.take?, ha]

/-- A number with all its digits ends, whatever follows. -/
theorem shortString_full (hu : unit value = some u) :
    shortString code unit (.decimal value 0) rest =
      (shortString code unit .plain rest).map fun r => (u :: r.1, r.2) := by
  cases rest with
  | nil => rfl
  | cons =>
    rw [shortString, shortString]
    simp only [StringScan.take?, StringScan.finish?, hu, Option.map_some, nil_append,
      singleton_append, apply_ite (Option.map _), Option.map_map, Option.map_none]
    rfl

theorem digit?_digitChar (h : n < 10) : digit? (Nat.digitChar n).toNat = some n := by
  rw [digit?, Nat.toNat_digitChar_of_lt_ten h, if_pos (by omega)]
  exact congrArg some (Nat.add_sub_cancel_left ..)

/-- An escape has a letter, or the three digits of its code. -/
theorem escape?_cases (h : escape? n = some escape) : n < 128 ∧
    ((∃ c : Char, escape = ['\\', c] ∧ (32 ≤ c.toNat ∧ c.toNat < 127) ∧ digit? c.toNat = none ∧
        escapedLetter? c.toNat = some n) ∨
      escape = ['\\', Nat.digitChar (n / 100), Nat.digitChar (n / 10 % 10),
        Nat.digitChar (n % 10)]) := by
  unfold escape? at h
  split at h
  · rename_i hn
    cases h
    exact ⟨by omega, .inl ⟨'n', rfl, by decide, by decide, hn ▸ rfl⟩⟩
  split at h
  · rename_i hn
    cases h
    exact ⟨by omega, .inl ⟨'t', rfl, by decide, by decide, hn ▸ rfl⟩⟩
  split at h
  · rename_i hn
    cases h
    exact ⟨by omega, .inl ⟨'r', rfl, by decide, by decide, hn ▸ rfl⟩⟩
  split at h
  · rename_i hn
    cases h
    exact ⟨by omega, .inl ⟨'"', rfl, by decide, by decide, hn ▸ rfl⟩⟩
  split at h
  · rename_i hn
    cases h
    exact ⟨by omega, .inl ⟨'\\', rfl, by decide, by decide, hn ▸ rfl⟩⟩
  split at h
  · rename_i hn
    cases h
    have hlow : n < 32 ∨ n = 127 := by simpa using hn
    exact ⟨by omega, .inr rfl⟩
  · cases h

/-- How units are written, and read from their codes. -/
structure Units (code : α → Nat) (unit : Nat → Option α) (ofChar : Char → α) : Prop where
  code_ofChar : ∀ c : Char, c.toNat < 128 → code (ofChar c) = c.toNat
  unit_code : ∀ u, code u < 128 → unit (code u) = some u

/-- The escape of a unit is read as the unit. -/
theorem Units.shortString_escape (U : Units code unit ofChar) (h : escape? (code u) = some escape) :
    shortString code unit .plain (escape.map ofChar ++ rest) =
      (shortString code unit .plain rest).map fun r => (u :: r.1, r.2) := by
  obtain ⟨hlt, ⟨c, rfl, hc, hd, hl⟩ | rfl⟩ := escape?_cases h
  · refine (shortString_backslash (U.code_ofChar _ (by decide))).trans ?_
    rw [← U.code_ofChar c (by omega)] at hd hl
    exact shortString_letter hd hl (U.unit_code u hlt)
  · -- All three digits are written, so a digit behind the escape does not belong to it.
    have hdigit {n : Nat} (hn : n < 10) : digit? (code (ofChar (Nat.digitChar n))) = some n := by
      rw [U.code_ofChar _ (by rw [Nat.toNat_digitChar_of_lt_ten hn]; omega)]
      exact digit?_digitChar hn
    have hvalue : 10 * (10 * (code u / 100) + code u / 10 % 10) + code u % 10 = code u := by omega
    refine (shortString_backslash (U.code_ofChar _ (by decide))).trans ?_
    refine (shortString_first (hdigit (by omega))).trans ?_
    refine (shortString_next (hdigit (by omega))).trans ?_
    refine (shortString_next (hdigit (by omega))).trans (shortString_full ?_)
    rw [hvalue]
    exact U.unit_code u hlt

/-- **A quoted string is read as the units it holds**, and reading ends
behind its closing quote. -/
theorem Units.shortString_quoteUnits (U : Units code unit ofChar) (units rest : List α) :
    ∃ body, quoteUnits code ofChar units = ofChar '"' :: body ∧
      shortString code unit .plain (body ++ rest) = some (units, rest) := by
  refine ⟨_, rfl, ?_⟩
  rw [append_assoc]
  induction units with
  | nil =>
    rw [flatMap_nil, nil_append, singleton_append, shortString]
    simp [StringScan.take?, StringScan.finish?, U.code_ofChar '"' (by decide)]
  | cons u units ih =>
    rw [flatMap_cons, append_assoc]
    cases he : escape? (code u) with
    | none => exact (shortString_self he).trans (congrArg (Option.map _) ih)
    | some => exact (U.shortString_escape he).trans (congrArg (Option.map _) ih)

end Quote

def asciiChar? (code : Nat) : Option Char := if code < 128 then some (Char.ofNat code) else none

theorem charUnits : Units Char.toNat asciiChar? id where
  code_ofChar _ _ := rfl
  unit_code c h := by
    rw [asciiChar?, if_pos h, Char.ofNat_toNat]

/-- The string that a literal in double quotes stands for, and what stands
behind it. -/
def literal? : List Char → Option (String × List Char)
  | '"' :: rest => (shortString Char.toNat asciiChar? .plain rest).map fun r =>
    (String.ofList r.1, r.2)
  | _ => none

theorem literal?_quote (text : String) (rest : List Char) :
    literal? ((quote text).toList ++ rest) = some (text, rest) := by
  obtain ⟨body, hquote, hread⟩ := charUnits.shortString_quoteUnits text.toList rest
  rw [quote, String.toList_ofList, hquote]
  change (shortString Char.toNat asciiChar? .plain (body ++ rest)).map _ = _
  rw [hread, Option.map_some, String.ofList_toList]

def byte? (code : Nat) : Option UInt8 := if code < 256 then some (.ofNat code) else none

def charByte (c : Char) : UInt8 := .ofNat c.toNat

def quoteBytes (bytes : List UInt8) : List UInt8 := quoteUnits UInt8.toNat charByte bytes

/-- The bytes that a literal in double quotes stands for, and what stands
behind it. -/
def byteLiteral? : List UInt8 → Option (List UInt8 × List UInt8)
  | [] => none
  | b :: rest => if b = charByte '"' then shortString UInt8.toNat byte? .plain rest else none

theorem toNat_charByte (h : c.toNat < 128) : (charByte c).toNat = c.toNat :=
  UInt8.toNat_ofNat_of_lt' (Nat.lt_trans h (by decide))

/-- Bytes are units as characters are. -/
theorem byteUnits : Units UInt8.toNat byte? charByte where
  code_ofChar _ := toNat_charByte
  unit_code b _ := by
    rw [byte?, if_pos b.toNat_lt, UInt8.ofNat_toNat]

theorem byteLiteral?_quoteBytes (bytes rest : List UInt8) :
    byteLiteral? (quoteBytes bytes ++ rest) = some (bytes, rest) := by
  obtain ⟨body, hquote, hread⟩ := byteUnits.shortString_quoteUnits bytes rest
  rw [quoteBytes, hquote, cons_append, byteLiteral?, if_pos rfl]
  exact hread

/-- A control code does not stand for itself. -/
theorem printable_of_escape?_eq_none (h : escape? code = none) : 32 ≤ code ∧ code ≠ 127 := by
  unfold escape? at h
  grind

/-- An escape is written in printable characters. -/
theorem printable_of_mem_escape {escape : List Char} (h : escape? code = some escape)
    (hc : c ∈ escape) : 32 ≤ c.toNat ∧ c.toNat < 127 := by
  have hdigit {n : Nat} (hn : n < 10) :
      32 ≤ (Nat.digitChar n).toNat ∧ (Nat.digitChar n).toNat < 127 := by
    rw [Nat.toNat_digitChar_of_lt_ten hn]
    omega
  obtain ⟨hlt, ⟨letter, rfl, hletter, -, -⟩ | rfl⟩ := escape?_cases h
  · simp only [mem_cons, not_mem_nil, or_false] at hc
    rcases hc with rfl | rfl
    · decide
    · exact hletter
  · simp only [mem_cons, not_mem_nil, or_false] at hc
    rcases hc with rfl | rfl | rfl | rfl
    · decide
    · exact hdigit (by omega)
    · exact hdigit (by omega)
    · exact hdigit (by omega)

theorem printable_of_mem_quoteBytes {bytes : List UInt8} (h : b ∈ quoteBytes bytes) :
    32 ≤ b.toNat ∧ b.toNat ≠ 127 := by
  have hquote : 32 ≤ (charByte '"').toNat ∧ (charByte '"').toNat ≠ 127 := by decide
  rw [quoteBytes, quoteUnits, mem_cons, mem_append, mem_singleton, mem_flatMap] at h
  obtain rfl | ⟨u, -, hu⟩ | rfl := h
  · exact hquote
  · split at hu
    · rename_i escape hescape
      obtain ⟨c, hc, rfl⟩ := mem_map.1 hu
      have hrange := printable_of_mem_escape hescape hc
      rw [toNat_charByte (by omega)]
      omega
    · rename_i hself
      obtain rfl := mem_singleton.1 hu
      exact printable_of_escape?_eq_none hself
  · exact hquote

def utf8 (text : String) : List UInt8 := text.toUTF8.data.toList

theorem utf8EncodeChar_of_lt (h : c.toNat < 128) :
    String.utf8EncodeChar c = [charByte c] := if_pos (Nat.le_of_lt_succ h)

/-- A character of several bytes has none in common with those of one. -/
theorem le_of_mem_utf8EncodeChar (h : 128 ≤ c.toNat) (hb : b ∈ String.utf8EncodeChar c) :
    128 ≤ b.toNat := by
  have hle {k m : Nat} (hk : 128 ≤ k) (hm : m + k < 256) : 128 ≤ (UInt8.ofNat (m + k)).toNat := by
    rw [UInt8.toNat_ofNat_of_lt' hm]
    omega
  have hwide : ¬ c.val.toNat ≤ 0x7f := Nat.not_le_of_gt h
  unfold String.utf8EncodeChar at hb
  dsimp only at hb
  rw [if_neg hwide] at hb
  split at hb
  · simp only [mem_cons, not_mem_nil, or_false] at hb
    rcases hb with rfl | rfl <;> exact hle (by decide) (by omega)
  · split at hb <;> simp only [mem_cons, not_mem_nil, or_false] at hb
    · rcases hb with rfl | rfl | rfl <;> exact hle (by decide) (by omega)
    · rcases hb with rfl | rfl | rfl | rfl <;> exact hle (by decide) (by omega)

theorem escape?_of_le (h : 128 ≤ code) : escape? code = none := by
  unfold escape?
  grind

theorem utf8_quote (text : String) : utf8 (quote text) = quoteBytes (utf8 text) := by
  have hbytes (cs : List Char) : utf8 (.ofList cs) = cs.flatMap String.utf8EncodeChar := by
    rw [utf8, String.toUTF8_eq_toByteArray, String.toByteArray_ofList, utf8Encode,
      toList_data_toByteArray]
  rw [← String.ofList_toList (s := text), hbytes, quote, hbytes, String.toList_ofList, quoteBytes,
    quoteUnits, quoteUnits, flatMap_cons, flatMap_append, flatMap_assoc,
    flatMap_assoc]
  refine congrArg (fun body => charByte '"' :: (body ++ [charByte '"'])) ?_
  refine congrArg (flatMap · text.toList) (funext fun c => ?_)
  rcases Nat.lt_or_ge c.toNat 128 with hc | hc
  · rw [utf8EncodeChar_of_lt hc, flatMap_singleton, toNat_charByte hc]
    cases hescape : escape? c.toNat with
    | none => exact (flatMap_singleton ..).trans (utf8EncodeChar_of_lt hc)
    | some escape =>
      have hchar : ∀ c ∈ escape, String.utf8EncodeChar c = [charByte c] := fun c hc =>
        utf8EncodeChar_of_lt (Nat.lt_succ_of_lt (printable_of_mem_escape hescape hc).2)
      dsimp only
      rw [map_id, map_eq_flatMap, flatMap_def, map_congr_left hchar, ← flatMap_def]
  · have hself : ∀ b ∈ String.utf8EncodeChar c, escape? b.toNat = none := fun b hb =>
      escape?_of_le (le_of_mem_utf8EncodeChar hc hb)
    rw [escape?_of_le hc, flatMap_singleton, flatMap_def (l := String.utf8EncodeChar c),
      map_congr_left (g := fun b => [b]) fun b hb => by rw [hself b hb], ← flatMap_def,
      flatMap_singleton']

/-- **String literals are read back.** -/
theorem literals_are_read_back :
    (∀ bytes rest, byteLiteral? (quoteBytes bytes ++ rest) = some (bytes, rest)) ∧
    Function.Injective quoteBytes ∧
    (∀ bytes, ∀ b ∈ quoteBytes bytes, 32 ≤ b.toNat ∧ b.toNat ≠ 127) ∧
    ∀ text, utf8 (quote text) = quoteBytes (utf8 text) := by
  refine ⟨byteLiteral?_quoteBytes, fun a b h => ?_, fun _ _ => printable_of_mem_quoteBytes, utf8_quote⟩
  have hread := byteLiteral?_quoteBytes a []
  rw [h, byteLiteral?_quoteBytes] at hread
  exact (congrArg Prod.fst (Option.some.inj hread)).symm

end LuaBackend.Lua
