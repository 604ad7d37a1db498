import LuaBackend.Lua.Lexical

/-!
# The form of numerals

A finite double is written as a decimal numeral of Lua: digits, perhaps a
point with digits, perhaps an exponent with a sign.
-/

namespace LuaBackend

open List String

variable {cs : List Char}

def Digits (cs : List Char) : Prop := ∀ c ∈ cs, c.isDigit = true

def IsFraction (cs : List Char) : Prop := cs = [] ∨ ∃ ds, cs = '.' :: ds ∧ Digits ds

def IsExponent (cs : List Char) : Prop :=
  cs = [] ∨ ∃ sign ds, cs = 'e' :: sign :: ds ∧ (sign = '+' ∨ sign = '-') ∧ ds ≠ [] ∧ Digits ds

def IsNumeral (cs : List Char) : Prop :=
  ∃ whole fraction exponent, cs = whole ++ fraction ++ exponent ∧ whole ≠ [] ∧ Digits whole ∧
    IsFraction fraction ∧ IsExponent exponent

theorem digits_toDigits (n : Nat) : Digits (Nat.toDigits 10 n) := fun _ hc =>
  Nat.isDigit_of_mem_toDigits (by decide) (by decide) hc

theorem Digits.isNumeral (h : Digits cs) (hne : cs ≠ []) : IsNumeral cs :=
  ⟨cs, [], [], by simp, hne, h, .inl rfl, .inl rfl⟩

/-- A numeral without point and exponent goes on with a point. -/
theorem IsNumeral.pointZero (h : IsNumeral cs) (hplain : ∀ c ∈ cs, c ≠ '.' ∧ c ≠ 'e') :
    IsNumeral (cs ++ ".0".toList) := by
  obtain ⟨whole, fraction, exponent, rfl, hne, hwhole, hfraction, hexponent⟩ := h
  obtain rfl | ⟨ds, rfl, -⟩ := hfraction
  · obtain rfl | ⟨sign, ds, rfl, -⟩ := hexponent
    · rw [append_nil, append_nil]
      exact ⟨whole, ['.', '0'], [], (append_nil _).symm, hne, hwhole,
        .inr ⟨['0'], rfl, forall_mem_singleton.2 (by decide)⟩, .inl rfl⟩
    · exact absurd rfl (hplain 'e' (by simp)).2
  · exact absurd rfl (hplain '.' (by simp)).1

theorem toList_toString_nat (n : Nat) : (toString n).toList = Nat.toDigits 10 n := by
  rw [Nat.toString_eq_ofList_toDigits, toList_ofList]

namespace Number

namespace Decimal

variable {ds : List Char}

theorem digits_trim (h : Digits ds) : Digits (trim ds) := fun c hc =>
  h c (mem_reverse.1 ((dropWhile_sublist _).mem (mem_reverse.1 hc)))

theorem isFraction_pointed (h : Digits ds) : IsFraction (pointed ds).toList := by
  have htrim := digits_trim h
  unfold pointed
  split
  · exact .inl rfl
  · exact .inr ⟨trim ds, by simp [toList_append], htrim⟩

theorem isExponent_exponentText (e : Int) : IsExponent (exponentText e).toList := by
  have hne : Nat.toDigits 10 e.natAbs ≠ [] := Nat.toDigits_ne_nil
  have hdigits := digits_toDigits e.natAbs
  refine .inr ⟨if e < 0 then '-' else '+',
    (if (toString e.natAbs).length < 2 then ['0'] else []) ++ Nat.toDigits 10 e.natAbs, ?_, ?_,
    append_ne_nil_of_right_ne_nil _ hne, forall_mem_append.2 ⟨?_, hdigits⟩⟩
  · simp only [exponentText, toList_append, toList_toString_nat, apply_ite toList]
    split <;> split <;> rfl
  · split
    · exact .inr rfl
    · exact .inl rfl
  · split
    · exact forall_mem_singleton.2 (by decide)
    · exact nofun

/-- The general format of a decimal is a numeral. -/
theorem isNumeral_general {precision : Nat} {x : Decimal} (h : Digits x.digits)
    (hne : x.digits ≠ []) : IsNumeral (x.general precision).toList := by
  have htake (n : Nat) : Digits (x.digits.take n) := fun c hc => h c (mem_of_mem_take hc)
  have hdrop (n : Nat) : Digits (x.digits.drop n) := fun c hc => h c (mem_of_mem_drop hc)
  have htakeNe (n : Nat) : x.digits.take (n + 1) ≠ [] := by
    cases hd : x.digits with
    | nil => exact absurd hd hne
    | cons => exact cons_ne_nil _ _
  unfold general
  split
  · rw [toList_append, toList_append, toList_ofList]
    exact ⟨_, _, _, rfl, htakeNe 0, htake 1, isFraction_pointed (hdrop 1),
      isExponent_exponentText _⟩
  · split
    · have hzeros : Digits (List.replicate (x.exponent.natAbs - 1) '0' ++ x.digits) :=
        forall_mem_append.2 ⟨fun c hc => (eq_of_mem_replicate hc) ▸ by decide, h⟩
      rw [toList_append]
      exact ⟨['0'], _, [], (append_nil _).symm, cons_ne_nil _ _,
        forall_mem_singleton.2 (by decide), isFraction_pointed hzeros, .inl rfl⟩
    · rw [toList_append, toList_ofList]
      exact ⟨_, _, [], (append_nil _).symm, htakeNe _, htake _, isFraction_pointed (hdrop _),
        .inl rfl⟩

theorem digits_ofDyadic (precision : Nat) (x : Dyadic) :
    Digits (ofDyadic precision x).digits ∧ (ofDyadic precision x).digits ≠ [] := by
  unfold ofDyadic
  split
  · exact ⟨forall_mem_singleton.2 (by decide), cons_ne_nil _ _⟩
  · exact ⟨digits_toDigits _, Nat.toDigits_ne_nil⟩

end Decimal

end Number

namespace Lua

open Number

/-- A double is written as a numeral, with a sign or not, or in words of its
own. -/
theorem floatText_cases (x : Binary64) : (x.isNaN = true ∧ floatText x = "(0/0)") ∨
    (x.isNaN = false ∧ (floatText x = x.signText ++ "math.huge" ∨
      ∃ text, floatText x = x.signText ++ text ∧ IsNumeral text.toList)) := by
  unfold floatText
  split
  · rename_i hnan
    exact .inl ⟨hnan, rfl⟩
  · rename_i hnan
    refine .inr ⟨Bool.eq_false_iff.2 hnan, ?_⟩
    split
    · exact .inl rfl
    · right
      have hparts := Decimal.digits_ofDyadic (x.fewestDigits 16 1) x.magnitude
      have hnumeral := @Decimal.isNumeral_general (x.fewestDigits 16 1) _ hparts.1 hparts.2
      dsimp only
      -- A text with neither a point nor an exponent goes on with a point.
      split
      · exact ⟨_, rfl, hnumeral⟩
      · rename_i hplain
        refine ⟨_, append_assoc, ?_⟩
        rw [toList_append]
        refine hnumeral.pointZero fun c hc => ?_
        have hmem : c ∈ x.shortest.toList := by
          rw [Binary64.shortest, Binary64.finiteText, toList_append]
          exact mem_append_right _ hc
        have hother := any_eq_false.1 (Bool.eq_false_iff.2 hplain) c hmem
        simpa using hother

end Lua

end LuaBackend
