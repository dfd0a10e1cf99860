import Pictogram.Decimal.Binary
import Pictogram.Fault

/-! # Colours and paints

A colour packs alpha, red, green and blue into 32 bits, alpha highest.  In markup it is `#` and six
or eight hexadecimal digits, alpha last and full when left out; a canvas wants it as
`rgba(r, g, b, alpha)` with alpha in thousandths, rounded to nearest. -/

namespace Pictogram

structure Color where
  argb : UInt32
deriving DecidableEq, Repr

namespace Color

def ofChannels (alpha red green blue : UInt8) : Color :=
  ⟨alpha.toUInt32 <<< 24 ||| red.toUInt32 <<< 16 ||| green.toUInt32 <<< 8 ||| blue.toUInt32⟩

def alpha (c : Color) : UInt8 := (c.argb >>> 24).toUInt8

def red (c : Color) : UInt8 := (c.argb >>> 16).toUInt8

def green (c : Color) : UInt8 := (c.argb >>> 8).toUInt8

def blue (c : Color) : UInt8 := c.argb.toUInt8

/-- The colour of a number: its whole part modulo `2 ^ 32`, and `0` if it is not finite. -/
def ofFloat (x : Float) : Color := ⟨UInt32.ofNat ((Binary.ofFloat x).truncate % 0x100000000).toNat⟩

/-- Thousandths of full intensity, rounded to nearest. -/
def thousandths (channel : UInt8) : Nat := (2000 * channel.toNat + 255) / 510

/-- A number of thousandths as a decimal without trailing zeros. -/
def thousandthsText (n : Nat) : Text :=
  let digits := (Text.ofNat (1000 + n % 1000)).drop 1
  let shown := (digits.reverse.dropWhile (· = unit '0')).reverse
  Text.ofNat (n / 1000) ++ if shown = [] then [] else unit '.' :: shown

/-- The colour as a canvas style. -/
def css (c : Color) : Text :=
  lit "rgba(" ++ Text.ofNat c.red.toNat ++ lit ", " ++ Text.ofNat c.green.toNat ++ lit ", " ++
    Text.ofNat c.blue.toNat ++ lit ", " ++ thousandthsText (thousandths c.alpha) ++ lit ")"

/-- The bytes that an even run of hexadecimal digits spells. -/
def hexBytes? : Text → Option (List UInt8)
  | [] => some []
  | [_] => none
  | u :: v :: t => do
    let high ← u.hexDigit?
    let low ← v.hexDigit?
    let bytes ← hexBytes? t
    return UInt8.ofNat (16 * high + low) :: bytes

/-- Reads `#RRGGBB` or `#RRGGBBAA`. -/
def read? : Text → Option Color
  | [] => none
  | hash :: digits =>
    if hash = unit '#' then
      match hexBytes? digits with
      | some [red, green, blue] => some (ofChannels 0xFF red green blue)
      | some [red, green, blue, alpha] => some (ofChannels alpha red green blue)
      | _ => none
    else none

end Color

/-- What an area is covered with. -/
inductive Paint where
  | none
  | solid (color : Color)
deriving DecidableEq, Repr

namespace Paint

def isSolid : Paint → Bool
  | none => false
  | solid _ => true

/-- Reads `none` or a colour. -/
def read (value : Text) : Except Fault Paint :=
  if value = lit "none" then .ok none
  else match Color.read? value with
    | some c => .ok (solid c)
    | Option.none => .error (.invalidColor value)

end Paint
end Pictogram
