/-!
# Shortest decimals

The decimal with the fewest digits that reads back as a given double, and of those the nearest to
it; of two that are equally near, the greater.

A finite double is `m * 2 ^ (e - 1074)` for natural numbers `m` and `e`. The reals that round to it
form an interval around it that reaches half way to its neighbours and holds its ends exactly when
`m` is even. For each power of ten, from coarse to fine, the two multiples around the double are
tried; the first power at which one of them lies in the interval gives the digits.

All quantities are counted in units of `2 ^ (-1076) * 10 ^ (-1074)`. In these units the double, the
ends of its interval and the multiples of every power of ten down to `10 ^ (-1074)` are whole
numbers. Every double is a multiple of `10 ^ (-1074)`, so the search needs no finer power.
-/

namespace TensorIR.Decimal

/-- The magnitude `m * 2 ^ (e - 1074)` of a double, and whether the double below it is only half as
far away as the one above. -/
structure Magnitude where
  m : Nat
  e : Nat
  closeBelow : Bool
deriving DecidableEq, Repr

/-- The decimal `digits * 10 ^ (scale - 1074)`. -/
structure Digits where
  digits : Nat
  scale : Nat
deriving DecidableEq, Repr

namespace Magnitude

/-- The number of units in a quarter of the distance to the double above. -/
def quarter (x : Magnitude) : Nat := Nat.pow 2 x.e * Nat.pow 10 1074

/-- The double in units. -/
def value (x : Magnitude) : Nat := 4 * x.m * x.quarter

/-- The lower end of the interval of reals that round to the double, in units. -/
def lower (x : Magnitude) : Nat := (4 * x.m - if x.closeBelow then 1 else 2) * x.quarter

/-- The upper end of the interval of reals that round to the double, in units. -/
def upper (x : Magnitude) : Nat := (4 * x.m + 2) * x.quarter

/-- Whether a number of units lies in the interval of reals that round to the double. -/
def rounds (x : Magnitude) (n : Nat) : Bool :=
  if x.m % 2 = 0 then x.lower ≤ n && n ≤ x.upper else x.lower < n && n < x.upper

/-- The number of units in `10 ^ (scale - 1074)`. -/
def step (scale : Nat) : Nat := Nat.pow 2 1076 * Nat.pow 10 scale

/-- The nearer of the two multiples of `10 ^ (scale - 1074)` around the double that reads back as
the double, if one does. -/
def atScale? (x : Magnitude) (scale : Nat) : Option Digits :=
  let below := x.value / step scale
  let rest := x.value % step scale
  let downFits := x.rounds (below * step scale)
  let upFits := x.rounds ((below + 1) * step scale)
  if upFits && (!downFits || step scale ≤ 2 * rest) then some ⟨below + 1, scale⟩
  else if downFits then some ⟨below, scale⟩
  else none

/-- The digits at the greatest scale up to the given one at which a decimal reads back. -/
def search (x : Magnitude) : Nat → Digits
  | 0 => (x.atScale? 0).getD ⟨x.value / step 0, 0⟩
  | scale + 1 => (x.atScale? (scale + 1)).getD (x.search scale)

/-- The shortest decimal that reads back as the double. At the scale where the search begins, one
unit in the last place exceeds the double. -/
def shortest (x : Magnitude) : Digits :=
  x.search (Nat.toDigits 10 (x.value / step 0)).length

end Magnitude

/-- What 64 bits stand for as a double. -/
inductive Reading where
  | nan
  | infinite (negative : Bool)
  | finite (negative : Bool) (x : Magnitude)
deriving DecidableEq, Repr

/-- The weight of the leading bit that the fraction leaves out: two to the power of fifty-two. -/
def leadingBit : Nat := 4503599627370496

/-- The double with the given bits: one of sign, eleven of exponent, fifty-two of fraction. -/
def read (bits : UInt64) : Reading :=
  let fraction := bits.toNat % leadingBit
  let exponent := bits.toNat / leadingBit % 2048
  let negative := bits.toNat / leadingBit / 2048 == 1
  if exponent = 2047 then
    if fraction = 0 then .infinite negative else .nan
  else if exponent = 0 then .finite negative ⟨fraction, 0, false⟩
  else .finite negative ⟨leadingBit + fraction, exponent - 1, fraction = 0 && 1 < exponent⟩

/-- How decimals are laid out: positionally when the exponent of the first digit is at least
`least` and less than `bound`, and with an exponent otherwise. -/
structure Layout where
  least : Int
  bound : Int

namespace Layout

/-- A decimal with at least one digit on each side of the point. -/
def positional (digits : List Char) (exponent : Int) : String :=
  let zeros (n : Nat) := List.replicate n '0'
  let whole := (exponent + 1).toNat
  let (left, right) :=
    if exponent < 0 then (['0'], zeros (-1 - exponent).toNat ++ digits)
    else if digits.length ≤ whole then (digits ++ zeros (whole - digits.length), ['0'])
    else (digits.take whole, digits.drop whole)
  String.ofList (left ++ '.' :: right)

/-- A decimal with one digit before the point and a power of ten. The point is left out where no
digit follows it. -/
def scientific (digits : List Char) (exponent : Int) : String :=
  let point := if digits.length ≤ 1 then [] else ['.']
  String.ofList (digits.take 1 ++ point ++ digits.drop 1) ++ "e" ++ toString exponent

/-- The text of the double with the given bits, in as few digits as read back. -/
def render (layout : Layout) (bits : UInt64) : String :=
  let signed (negative : Bool) (text : String) := if negative then "-" ++ text else text
  match read bits with
  | .nan => "NaN"
  | .infinite negative => signed negative "inf"
  | .finite negative x =>
    if x.m = 0 then signed negative "0.0"
    else
      let shortest := x.shortest
      let digits := Nat.toDigits 10 shortest.digits
      let exponent : Int := digits.length - 1 + shortest.scale - 1074
      signed negative <|
        if layout.least ≤ exponent ∧ exponent < layout.bound then positional digits exponent
        else scientific digits exponent

end Layout

end TensorIR.Decimal
