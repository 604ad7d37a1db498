/-!
# Double-precision numbers

A double is kept as its 64 bits. Its value is read off the bits as an
exact integer times a power of two, and a fraction of naturals is rounded
to the nearest double in exact integer arithmetic.
-/

namespace LuaBackend.Number

/-- The quotient `num / den`, rounded to the nearest natural; a quotient
halfway between two goes to the even one. -/
def roundDiv (num den : Nat) : Nat :=
  let q := num / den
  let r := num % den
  if 2 * r < den then q
  else if den < 2 * r then q + 1
  else if q % 2 = 0 then q else q + 1

/-- A natural times an integral power of ten or two, as a fraction. -/
def scaled (base m : Nat) (exponent : Int) : Nat × Nat :=
  match exponent with
  | .ofNat e => (m * base.pow e, 1)
  | .negSucc e => (m, base.pow (e + 1))

/-- A double-precision number, given by its bits. -/
structure Binary64 where
  bits : UInt64
deriving DecidableEq, Inhabited

/-- The number `mantissa * 2 ^ exponent`. -/
structure Dyadic where
  mantissa : Nat
  exponent : Int
deriving DecidableEq, Inhabited

namespace Dyadic

/-- The value as a fraction. -/
def fraction (x : Dyadic) : Nat × Nat := scaled 2 x.mantissa x.exponent

/-- The exponent of the last bit of the double nearest to `num / den`:
53 bits below the leading one, and never below the last bit of the
smallest double. -/
def lastBit (num den : Nat) : Int :=
  let guess : Int := (Nat.log2 num : Int) - (Nat.log2 den : Int)
  let (n, d) := scaled 2 den guess
  let leading := if n ≤ num * d then guess else guess - 1
  max (leading - 52) (-1074)

/-- The double nearest to the positive fraction `num / den`, ties to the
even mantissa; nothing when it lies beyond the largest double. -/
def nearest? (num den : Nat) : Option Dyadic :=
  let q := lastBit num den
  let (n, d) := scaled 2 den q
  let m := roundDiv (num * d) n
  let x : Dyadic := if m = Nat.pow 2 53 then ⟨Nat.pow 2 52, q + 1⟩ else ⟨m, q⟩
  if 971 < x.exponent then none else some x

end Dyadic

namespace Binary64

/-- The sign bit is set. -/
def isNegative (x : Binary64) : Bool := Nat.pow 2 63 ≤ x.bits.toNat

/-- The eleven exponent bits. -/
def exponentField (x : Binary64) : Nat := x.bits.toNat / Nat.pow 2 52 % Nat.pow 2 11

/-- The 52 fraction bits. -/
def fractionField (x : Binary64) : Nat := x.bits.toNat % Nat.pow 2 52

/-- Not a number. -/
def isNaN (x : Binary64) : Bool := x.exponentField == 2047 && x.fractionField != 0

/-- One of the two infinities. -/
def isInfinite (x : Binary64) : Bool := x.exponentField == 2047 && x.fractionField == 0

/-- The absolute value of a finite number. -/
def magnitude (x : Binary64) : Dyadic :=
  if x.exponentField = 0 then ⟨x.fractionField, -1074⟩
  else ⟨Nat.pow 2 52 + x.fractionField, (x.exponentField : Int) - 1075⟩

end Binary64

end LuaBackend.Number
