import Pictogram.Decimal.Shortest
import Pictogram.Decimal.Numeral

/-! # Decimal text of a float

Floats are written with the fewest digits that read back, positionally from `10 ^ -6` up to below
`10 ^ 21` and otherwise with an exponent that has its sign (`1e+21`, `1.5e-7`).  Both zeros are
written `0`.  `Decimal.read?` reads such text back; it also knows the sign of `-0`. -/

namespace Pictogram
namespace Decimal

/-- The greatest number of digits before the point in positional text. -/
def mostWholeDigits : Int := 21

/-- The greatest number of zeros between the point and the first digit in positional text. -/
def mostLeadingZeros : Int := 5

def zeros (n : Int) : Text := List.replicate n.toNat (unit '0')

def signedExponent (e : Int) : Text :=
  unit 'e' :: unit (if e < 0 then '-' else '+') :: Text.ofNat e.natAbs

/-- The text of a positive decimal: its digits, with the point after the first `point` of them. -/
def layout (d : ShortDecimal) : Text :=
  let digits := Text.ofNat d.digits
  let count : Int := digits.length
  let point := count + d.exponent
  if count ≤ point ∧ point ≤ mostWholeDigits then digits ++ zeros (point - count)
  else if 0 < point ∧ point ≤ mostWholeDigits then
    digits.take point.toNat ++ unit '.' :: digits.drop point.toNat
  else if -mostLeadingZeros ≤ point ∧ point ≤ 0 then lit "0." ++ zeros (-point) ++ digits
  else if count = 1 then digits ++ signedExponent (point - 1)
  else digits.take 1 ++ unit '.' :: digits.drop 1 ++ signedExponent (point - 1)

def sign (negative : Bool) : Text := if negative then [unit '-'] else []

def ofBinary : Binary → Text
  | .nan => lit "NaN"
  | .infinite negative => sign negative ++ lit "Infinity"
  | .finite negative m e => if m = 0 then lit "0" else sign negative ++ layout (ShortDecimal.ofBinary m e)

/-- The text of a float. -/
def ofFloat (x : Float) : Text := ofBinary (Binary.ofFloat x)

/-! ### Reading -/

/-- The exponent part of a number, if it is one from end to end. -/
def readExponent? : Text → Option Int
  | [] => some 0
  | e :: t =>
    if e = unit 'e' ∨ e = unit 'E' then
      let (negative, t) := match t with
        | [] => (false, [])
        | u :: r => if u = unit '-' then (true, r) else if u = unit '+' then (false, r) else (false, u :: r)
      match Digit.scan t with
      | ([], _) => none
      | (_, _ :: _) => none
      | (ds, []) => some (if negative then -(Digit.value ds : Int) else Digit.value ds)
    else none

/-- Reads what `ofFloat` writes, any numeral with or without an exponent, and `-0`. -/
def read? (t : Text) : Option Float :=
  if t = lit "NaN" then some (0.0 / 0.0)
  else if t = lit "Infinity" then some (1.0 / 0.0)
  else if t = lit "-Infinity" then some (-1.0 / 0.0)
  else do
    let (n, rest) ← Numeral.scan? t
    let e ← readExponent? rest
    let scale := e - n.fractionDigits.length
    let size := Float.ofScientific (Digit.value (n.whole ++ n.fractionDigits)) (scale < 0) scale.natAbs
    return if n.negative then -size else size

end Decimal
end Pictogram
