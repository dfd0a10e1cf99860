import Pictogram.Decimal.Binary

/-! # Shortest decimals

The decimal of a positive double is, among the decimals with the fewest digits that round to it, the
one nearest to its exact value.  A decimal rounds to `m · 2 ^ e` when it lies between the midpoints
to the two neighbouring doubles; the midpoints themselves round to it when `m` is even.  All
comparisons are between natural numbers.

For each digit count from 1 the only candidates are the two points of that decimal grid around the
exact value; seventeen digits always suffice. -/

namespace Pictogram

/-- A positive decimal `digits · 10 ^ exponent`. -/
structure ShortDecimal where
  digits : Nat
  exponent : Int
deriving DecidableEq, Repr

namespace Shortest

/-- The reals that round to a double: the value and the two midpoints over one denominator. -/
structure Interval where
  value : Nat
  low : Nat
  high : Nat
  denominator : Nat
  /-- Whether the midpoints belong to it. -/
  closed : Bool
deriving DecidableEq, Repr

/-- The interval of `m · 2 ^ e`.  Below a power of two the next double is only half as far away,
unless the exponent is already the least. -/
def interval (m : Nat) (e : Int) : Interval :=
  let gap := if m = Binary.leastNormal ∧ e ≠ Binary.leastExponent then 1 else 2
  let scale := 1 <<< (e - 2).toNat
  { value := 4 * m * scale
    low := (4 * m - gap) * scale
    high := (4 * m + 2) * scale
    denominator := 1 <<< (2 - e).toNat
    closed := m % 2 = 0 }

namespace Interval

/-- The `k` with `10 ^ (k - 1) ≤ value < 10 ^ k`. -/
def magnitude (i : Interval) : Int :=
  if i.denominator ≤ i.value then (Nat.toDigits 10 (i.value / i.denominator)).length
  else 1 - ((Nat.toDigits 10 ((i.denominator - 1) / i.value)).length : Int)

/-- The interval measured in units of `10 ^ p`: `g` units stand at `g · denominator`. -/
def inUnits (i : Interval) (p : Int) : Interval :=
  let down := Nat.pow 10 (-p).toNat
  { i with value := i.value * down, low := i.low * down, high := i.high * down,
           denominator := i.denominator * Nat.pow 10 p.toNat }

/-- Whether `g` units lie in the interval. -/
def holds (i : Interval) (g : Nat) : Bool :=
  let x := g * i.denominator
  if i.closed then i.low ≤ x && x ≤ i.high else i.low < x && x < i.high

/-- The unit count in the interval next to the value, if there is one; the even one of two that are
equally near. -/
def nearest? (i : Interval) : Option Nat :=
  let below := i.value / i.denominator
  let above := below + 1
  match i.holds below, i.holds above with
  | false, false => none
  | true, false => some below
  | false, true => some above
  | true, true =>
    let down := i.value - below * i.denominator
    let up := above * i.denominator - i.value
    some (if down < up then below else if up < down then above
      else if below % 2 = 0 then below else above)

end Interval

/-- Trailing zeros move into the exponent. -/
def strip : (fuel : Nat) → ShortDecimal → ShortDecimal
  | 0, d => d
  | n + 1, d => if d.digits % 10 = 0 then strip n ⟨d.digits / 10, d.exponent + 1⟩ else d

/-- The most digits that a double needs. -/
def mostDigits : Nat := 17

end Shortest

open Shortest in
/-- The shortest decimal of `m · 2 ^ e`, for a positive `m`. -/
def ShortDecimal.ofBinary (m : Nat) (e : Int) : ShortDecimal :=
  let i := interval m e
  let k := i.magnitude
  let attempt (count : Nat) : Option ShortDecimal :=
    let p := k - count
    (i.inUnits p).nearest?.map fun g => strip mostDigits ⟨g, p⟩
  ((List.range' 1 mostDigits).findSome? attempt).getD ⟨m, e⟩

end Pictogram
