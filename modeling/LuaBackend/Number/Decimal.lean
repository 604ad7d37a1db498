import LuaBackend.Number.Binary64

/-!
# Decimal text of doubles

A double is rounded to a number of significant digits, halves to even, and
written in general notation: positional while the decimal point is near
the digits, with an exponent otherwise, and without trailing zeros.
`shortest` takes the fewest digits that read back as the same double.
-/

namespace LuaBackend.Number

/-- The number `d₀.d₁d₂… * 10 ^ exponent`, given by its digits. -/
structure Decimal where
  digits : List Char
  exponent : Int
deriving DecidableEq, Inhabited

namespace Decimal

/-- The exponent of the leading decimal digit of the positive fraction
`num / den`. -/
def leadingExponent (num den : Nat) : Int :=
  let guess : Int := ((Nat.toDigits 10 num).length : Int) - ((Nat.toDigits 10 den).length : Int)
  let (n, d) := scaled 10 den guess
  if n ≤ num * d then guess else guess - 1

/-- The positive fraction `num / den` to `precision` significant digits:
the natural made of the digits, and the exponent of the leading one. -/
def round (num den precision : Nat) : Nat × Int :=
  let lead := leadingExponent num den
  let (n, d) := scaled 10 den (lead + 1 - precision)
  let m := roundDiv (num * d) n
  if m = Nat.pow 10 precision then (Nat.pow 10 (precision - 1), lead + 1) else (m, lead)

/-- The value of a double to `precision` significant digits. -/
def ofDyadic (precision : Nat) (x : Dyadic) : Decimal :=
  if x.mantissa = 0 then ⟨['0'], 0⟩
  else
    let (num, den) := x.fraction
    let (m, lead) := round num den precision
    ⟨Nat.toDigits 10 m, lead⟩

/-- The value of a double, rounded to `precision` significant digits,
still reads back as that double. -/
def readsBack (precision : Nat) (x : Dyadic) : Bool :=
  if x.mantissa = 0 then true
  else
    let (num, den) := x.fraction
    let (m, lead) := round num den precision
    let (n, d) := scaled 10 m (lead + 1 - precision)
    Dyadic.nearest? n d == some x

/-- The digits without trailing zeros. -/
def trim (digits : List Char) : List Char :=
  (digits.reverse.dropWhile (· = '0')).reverse

/-- A point and the digits after it, or nothing when they are all zero. -/
def pointed (digits : List Char) : String :=
  match trim digits with
  | [] => ""
  | ds => "." ++ String.ofList ds

/-- An exponent with its sign and at least two digits. -/
def exponentText (e : Int) : String :=
  let digits := toString e.natAbs
  (if e < 0 then "e-" else "e+") ++ (if digits.length < 2 then "0" else "") ++ digits

/-- General notation: positional when the leading exponent is at least
`-4` and below the number of digits asked for. -/
def general (precision : Nat) (x : Decimal) : String :=
  if x.exponent < -4 || (precision : Int) ≤ x.exponent then
    String.ofList (x.digits.take 1) ++ pointed (x.digits.drop 1) ++ exponentText x.exponent
  else if x.exponent < 0 then
    "0" ++ pointed (List.replicate (x.exponent.natAbs - 1) '0' ++ x.digits)
  else
    let whole := x.exponent.toNat + 1
    String.ofList (x.digits.take whole) ++ pointed (x.digits.drop whole)

end Decimal

namespace Binary64

/-- The text of the sign. -/
def signText (x : Binary64) : String := if x.isNegative then "-" else ""

/-- A finite double to `precision` significant digits. -/
def finiteText (precision : Nat) (x : Binary64) : String :=
  x.signText ++ (Decimal.ofDyadic precision x.magnitude).general precision

/-- The fewest significant digits, from `precision` on and within `fuel`
further ones, that read back as the same finite double. -/
def fewestDigits (x : Binary64) : (fuel precision : Nat) → Nat
  | 0, precision => precision
  | fuel + 1, precision =>
    if Decimal.readsBack precision x.magnitude then precision
    else fewestDigits x fuel (precision + 1)

/-- A finite double with the fewest digits that read back; seventeen
always do. -/
def shortest (x : Binary64) : String :=
  x.finiteText (x.fewestDigits 16 1)

/-- A double to six significant digits, with words for what is not a
finite number. -/
def sixDigits (x : Binary64) : String :=
  if x.isNaN then x.signText ++ "nan"
  else if x.isInfinite then x.signText ++ "inf"
  else x.finiteText 6

end Binary64

end LuaBackend.Number
