import LuaBackend.Lua.Lexical

/-!
# Names of locals

A temporary is called by its number behind the prefix of generated names.
A variable of the program that begins so is given an underscore at its
end, where a temporary has a digit. So a temporary shares its name with no
other variable.
-/

namespace LuaBackend.Lua

open List String

variable {d v : Var}

def tempDigits (id : UInt32) : List Char := Nat.toDigits 10 (id - tempBase).toNat

theorem tempName_toList (id : UInt32) :
    (tempName id).toList = reservedStart.toList ++ ('t' :: tempDigits id) := by
  have hdigits : (toString (id - tempBase)).toList = tempDigits id :=
    (congrArg toList Nat.toString_eq_ofList_toDigits).trans toList_ofList
  unfold tempName
  rw [toList_append, hdigits]
  rfl

/-- Temporaries are told apart by their names. -/
theorem tempName_injective {a b : UInt32} (h : tempName a = tempName b) : a = b := by
  have hdigits : tempDigits a = tempDigits b := by
    have hlist := congrArg toList h
    rw [tempName_toList, tempName_toList] at hlist
    exact (cons.inj (append_cancel_left hlist)).2
  have hnat : (a - tempBase).toNat = (b - tempBase).toNat :=
    calc (a - tempBase).toNat
      _ = Nat.ofDigitChars 10 (tempDigits a) 0 := Nat.ofDigitChars_ten_toDigits.symm
      _ = Nat.ofDigitChars 10 (tempDigits b) 0 := by rw [hdigits]
      _ = (b - tempBase).toNat := Nat.ofDigitChars_ten_toDigits
  exact (UInt32.sub_left_inj tempBase).1 (UInt32.toNat_inj.1 hnat)

/-- A name that ends in a number does not end in an underscore. -/
theorem append_toString_ne (stem : String) (number : UInt32) (name : String) :
    stem ++ toString number ≠ name ++ "_" := by
  intro h
  have hlist := congrArg toList h
  have hdigits : (toString number).toList = Nat.toDigits 10 number.toNat :=
    (congrArg toList Nat.toString_eq_ofList_toDigits).trans toList_ofList
  rw [toList_append, toList_append, hdigits] at hlist
  have hlast : (Nat.toDigits 10 number.toNat).getLast Nat.toDigits_ne_nil = '_' := by
    have hlast := congrArg getLast? hlist
    rw [getLast?_append, getLast?_eq_some_getLast Nat.toDigits_ne_nil, Option.some_or] at hlast
    exact Option.some.inj (hlast.trans getLast?_concat)
  have hmem : '_' ∈ Nat.toDigits 10 number.toNat := hlast ▸ getLast_mem _
  have hdigit : ('_').isDigit = true := Nat.isDigit_of_mem_toDigits (by decide) (by decide) hmem
  exact absurd hdigit (by decide)

/-- A name beginning as generated ones do is reserved. -/
theorem isReservedLocal_of_start {name : String} (h : reservedStart.toList <+: name.toList) :
    isReservedLocal name = true := by
  rw [isReservedLocal, isPrefixOf_iff_prefix.2 h, Bool.or_true, Bool.true_or]

/-- No variable of the program gets a reserved name, unless by its
underscore. -/
theorem localIdentifier_ne {name : String} (hres : isReservedLocal name = true)
    (hname : ∀ stem, name ≠ stem ++ "_") (given : String) : localIdentifier given ≠ name := by
  rintro rfl
  unfold localIdentifier at hres hname
  split at hres
  · rename_i hgiven
    exact hname given (if_pos hgiven)
  · rename_i hgiven
    exact hgiven hres

theorem localIdentifier_ne_of_getLast? {name : String} (hres : isReservedLocal name = true)
    (hlast : name.toList.getLast? ≠ some '_') (given : String) : localIdentifier given ≠ name := by
  refine localIdentifier_ne hres (fun stem hstem => hlast ?_) given
  rw [hstem, toList_append]
  exact getLast?_concat

theorem localIdentifier_ne_tempName (name : String) (id : UInt32) :
    localIdentifier name ≠ tempName id := by
  have hstart : reservedStart.toList <+: (tempName id).toList :=
    tempName_toList id ▸ prefix_append _ _
  exact localIdentifier_ne (isReservedLocal_of_start hstart) (append_toString_ne _ _) name

/-- Variables of the program with one name share it in Lua. -/
theorem localName_eq (hd : d.isTemp = false) (hv : v.isTemp = false) (h : d.name = v.name) :
    localName d = localName v := by
  unfold localName
  rw [hd, hv, h]
  rfl

/-- A temporary shares its name with no other variable. -/
theorem localName_ne (ht : d.isTemp = true ∨ v.isTemp = true) (hne : d.id ≠ v.id) :
    localName d ≠ localName v := by
  unfold localName
  split
  · split
    · exact fun h => hne (tempName_injective h)
    · exact fun h => localIdentifier_ne_tempName v.name d.id h.symm
  · rename_i hd
    rw [if_pos (ht.resolve_left hd)]
    exact localIdentifier_ne_tempName d.name v.id

/-- No variable gets a reserved name that neither ends in an underscore nor
begins as temporaries do. -/
theorem localName_ne_reserved {name : String} (hres : isReservedLocal name = true)
    (hlast : name.toList.getLast? ≠ some '_')
    (htemp : (reservedStart.toList ++ ['t']).isPrefixOf name.toList = false) (v : Var) :
    localName v ≠ name := by
  unfold localName
  split
  · rintro rfl
    rw [tempName_toList, append_cons] at htemp
    have hstart := isPrefixOf_iff_prefix.2
      (prefix_append (reservedStart.toList ++ ['t']) (tempDigits v.id))
    exact absurd (hstart.symm.trans htemp) (by decide)
  · exact localIdentifier_ne_of_getLast? hres hlast v.name

end LuaBackend.Lua
