import LayeredConfig.Decimal.Binary64

/-!
# The shortest decimal of a binary number

Of the decimals that are read back as a given number, the shortest is the one with the fewest
digits, and of those the nearest to the number. It lies on the coarsest power of ten on which
some decimal reads back, and there it is one of the two neighbours of the number.

## Main definitions

* `Shortest.decimal`: digits and power of ten of the shortest decimal.
* `RealStyle`, `Binary64.text`: the shortest decimal as a text.
-/

namespace LayeredConfig

namespace Shortest

/-- The decimals on the grid `10 ^ power` that are compared with the rounding interval of a
number. All are multiplied by one common factor that makes them natural: `unit` is the step of
the grid, `low`, `value` and `high` are the interval. -/
structure Grid where
  unit : Nat
  low : Nat
  value : Nat
  high : Nat
  closed : Bool

/-- The grid of a power of ten beside the number `mantissa · 2 ^ exponent`. The interval of the
decimals that are read back as the number reaches half a step of the mantissa to both sides,
but only a quarter of one below a power of two. -/
def grid (mantissa : Nat) (exponent power : Int) : Grid :=
  let factor := Binary64.scale 2 (exponent - 2) * Binary64.scale 10 (-power)
  let below := if mantissa = Binary64.leastFull ∧ exponent > Binary64.minExponent then 1 else 2
  { unit := Binary64.scale 10 power * Binary64.scale 2 (2 - exponent)
    low := (4 * mantissa - below) * factor
    value := 4 * mantissa * factor
    high := (4 * mantissa + 2) * factor
    closed := mantissa % 2 = 0 }

namespace Grid

/-- The `n`-th decimal of the grid reads back as the number. -/
def readsBack (g : Grid) (n : Nat) : Bool :=
  if g.closed then g.low ≤ n * g.unit && n * g.unit ≤ g.high
  else g.low < n * g.unit && n * g.unit < g.high

/-- The neighbour of the number that reads back; of two, the nearer, and of two equally near
the even one. -/
def hit? (g : Grid) : Option Nat :=
  let below := g.value / g.unit
  let above := below + 1
  match g.readsBack below, g.readsBack above with
  | false, false => none
  | true, false => some below
  | false, true => some above
  | true, true =>
    let toBelow := g.value - below * g.unit
    let toAbove := above * g.unit - g.value
    if toBelow < toAbove ∨ (toBelow = toAbove ∧ below % 2 = 0) then some below else some above

end Grid

/-- Looks for a decimal that reads back, from a power of ten downwards. -/
def search (mantissa : Nat) (exponent : Int) : Nat → Int → Nat × Int
  | 0, power => ((grid mantissa exponent power).value / (grid mantissa exponent power).unit, power)
  | steps + 1, power =>
    match (grid mantissa exponent power).hit? with
    | some n => (n, power)
    | none => search mantissa exponent steps (power - 1)

/-- The digits and the power of ten of the shortest decimal of `mantissa · 2 ^ exponent`. The
search starts above the number, so that it ends after at most nineteen steps. -/
def decimal (mantissa : Nat) (exponent : Int) : Nat × Int :=
  let start : Int := ((mantissa.log2 : Int) + 1 + exponent) * 30103 / 100000 + 1
  search mantissa exponent 24 start

end Shortest

/-- How a number is written. -/
structure RealStyle where
  /-- Positional notation begins with this power of ten. -/
  leastPositional : Int
  /-- Positional notation ends before this power of ten. -/
  endPositional : Int
  /-- What stands before an exponent that is not negative. -/
  exponentSign : String
  deriving DecidableEq, Repr

namespace Binary64

/-- The number with its decimal digits `digits` times `10 ^ power` as a text. -/
def layOut (style : RealStyle) (digits : List Char) (power : Int) : String :=
  let lead : Int := digits.length + power - 1
  if style.leastPositional ≤ lead ∧ lead < style.endPositional then
    if 0 ≤ power then
      String.ofList (digits ++ List.replicate power.toNat '0' ++ ['.', '0'])
    else if 0 ≤ lead then
      let whole := (lead + 1).toNat
      String.ofList (digits.take whole ++ '.' :: digits.drop whole)
    else
      String.ofList ('0' :: '.' :: List.replicate (-lead - 1).toNat '0' ++ digits)
  else
    let fraction := if digits.length ≤ 1 then [] else '.' :: digits.drop 1
    let sign := if lead < 0 then "" else style.exponentSign
    String.ofList (digits.take 1 ++ fraction) ++ "e" ++ sign ++ toString lead

/-- The shortest decimal as a text. -/
def text (style : RealStyle) (x : Binary64) : String :=
  let sign := if x.negative then "-" else ""
  if x.isZero then sign ++ "0.0"
  else
    let (digits, power) := Shortest.decimal x.mantissa x.exponent
    sign ++ layOut style (Nat.toDigits 10 digits) power

end Binary64

end LayeredConfig
