/-! # Binary parts of a float

A finite double is `± mantissa · 2 ^ exponent` with a natural mantissa; `Binary.ofFloat` reads the
three parts off the 64 bits.  Exact decimal text and exact conversion to integers start here. -/

namespace Pictogram

/-- A double as an exact value. -/
inductive Binary where
  | nan
  | infinite (negative : Bool)
  | finite (negative : Bool) (mantissa : Nat) (exponent : Int)
deriving DecidableEq, Repr

namespace Binary

/-- The least exponent of a double. -/
def leastExponent : Int := -1074

/-- The mantissa of the doubles that are a power of two, least ones apart. -/
def leastNormal : Nat := 0x10000000000000

def ofFloat (x : Float) : Binary :=
  let negative := x.toBits >>> 63 == 1
  let biased := (x.toBits >>> 52 &&& 0x7FF).toNat
  let fraction := (x.toBits &&& 0xFFFFFFFFFFFFF).toNat
  if biased = 0x7FF then if fraction = 0 then infinite negative else nan
  else if biased = 0 then finite negative fraction leastExponent
  else finite negative (leastNormal + fraction) (biased - 1075)

/-- The value rounded toward zero; `0` for what is not finite. -/
def truncate : Binary → Int
  | finite negative m e =>
    let size := if 0 ≤ e then m <<< e.toNat else m >>> (-e).toNat
    if negative then -size else size
  | _ => 0

end Binary
end Pictogram
