/-!
# Binary floating-point numbers

A finite number of the 64-bit format is a sign, a natural mantissa below `2 ^ 53` and a power
of two of at least `-1074`. All arithmetic is exact on natural numbers, followed by one rounding
to the nearest such number, a tie going to the even mantissa.

## Main definitions

* `Binary64`, `Binary64.nearest?`: the number nearest to a quotient of natural numbers.
* `Binary64.ofDecimal?`: the number nearest to a decimal.
-/

namespace LayeredConfig

/-- The finite number `± mantissa · 2 ^ exponent`. -/
structure Binary64 where
  negative : Bool
  mantissa : Nat
  exponent : Int
  deriving DecidableEq, Repr

namespace Binary64

/-- The least power of two. -/
def minExponent : Int := -1074

/-- The greatest power of two. -/
def maxExponent : Int := 971

/-- The least mantissa of 53 bits. -/
def leastFull : Nat := 1 <<< 52

/-- The bound of all mantissas. -/
def mantissaBound : Nat := 2 * leastFull

/-- The zero of a sign. -/
def zero (negative : Bool) : Binary64 := ⟨negative, 0, minExponent⟩

/-- The number is a zero. -/
def isZero (x : Binary64) : Bool := x.mantissa = 0

/-- `base ^ exponent` where the exponent is positive, and one otherwise. -/
def scale (base : Nat) (exponent : Int) : Nat := Nat.pow base exponent.toNat

/-- The quotient of two natural numbers rounded to the nearest, a tie to the even one. -/
def roundQuotient (num den : Nat) : Nat :=
  let floor := num / den
  let twice := 2 * (num % den)
  if twice < den ∨ (twice = den ∧ floor % 2 = 0) then floor else floor + 1

/-- The mantissa of `num / den` at a given power of two. -/
def mantissaAt (num den : Nat) (exponent : Int) : Nat :=
  roundQuotient (num * scale 2 (-exponent)) (den * scale 2 exponent)

/-- The power of two at which the mantissa of `num / den` has 53 bits, or the least one. -/
def exponentOf (num den : Nat) : Int :=
  let guess : Int := (num.log2 : Int) - den.log2 - 52
  let short := num * scale 2 (-guess) < leastFull * (den * scale 2 guess)
  max minExponent (if short then guess - 1 else guess)

/-- The number nearest to `± num / den`, if that is not beyond the range. -/
def nearest? (negative : Bool) (num den : Nat) : Option Binary64 :=
  if num = 0 then some (zero negative)
  else
    let exponent := exponentOf num den
    let mantissa := mantissaAt num den exponent
    let (mantissa, exponent) :=
      if mantissa = mantissaBound then (leastFull, exponent + 1) else (mantissa, exponent)
    if exponent > maxExponent then none else some ⟨negative, mantissa, exponent⟩

/-- The number of decimal digits. -/
def digitCount (n : Nat) : Nat := (Nat.toDigits 10 n).length

/-- The number nearest to `± digits · 10 ^ exponent`, if that is not beyond the range. A
decimal far outside of the range is settled by its order of magnitude. -/
def ofDecimal? (negative : Bool) (digits : Nat) (exponent : Int) : Option Binary64 :=
  let order : Int := digitCount digits + exponent
  if digits = 0 ∨ order < -400 then some (zero negative)
  else if order > 400 then none
  else nearest? negative (digits * scale 10 exponent) (scale 10 (-exponent))

/-- The product, if it is not beyond the range. -/
def mul? (x y : Binary64) : Option Binary64 :=
  let exponent := x.exponent + y.exponent
  nearest? (x.negative != y.negative) (x.mantissa * y.mantissa * scale 2 exponent)
    (scale 2 (-exponent))

/-- The quotient by a number that is not zero, if it is not beyond the range. -/
def div? (x y : Binary64) : Option Binary64 :=
  let exponent := x.exponent - y.exponent
  nearest? (x.negative != y.negative) (x.mantissa * scale 2 exponent)
    (y.mantissa * scale 2 (-exponent))

end Binary64

end LayeredConfig
