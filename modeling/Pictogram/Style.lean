import Pictogram.Paint
import Pictogram.Plane
import Pictogram.Text.Table

/-! # Styles

How one shape is placed and painted.  Styles belong to a single element: nothing is inherited.  The
cap and join of a line are kept as written. -/

namespace Pictogram

structure LineStyle where
  width : Float
  cap : Text
  join : Text
deriving DecidableEq, Repr

structure Style where
  transform : Affine
  fill : Paint
  stroke : Paint
  line : LineStyle
deriving DecidableEq, Repr

namespace Style

/-- A style that draws nothing is skipped altogether. -/
def isPainted (s : Style) : Bool := s.fill.isSolid || s.stroke.isSolid

def readTransform : Option Text → Except Fault Affine
  | none => .ok .identity
  | some value => Affine.read value

def readPaint : Option Text → Except Fault Paint
  | none => .ok .none
  | some value => Paint.read value

/-- Reads the style of an element; the first bad attribute, in the order below, is the fault. -/
def read (attributes : Table) : Except Fault Style := do
  let transform ← readTransform (attributes.get? (lit "transform"))
  let fill ← readPaint (attributes.get? (lit "fill"))
  let stroke ← readPaint (attributes.get? (lit "stroke"))
  let width ← readNumber (lit "stroke-width") (attributes.get? (lit "stroke-width"))
  let cap := (attributes.get? (lit "stroke-linecap")).getD []
  let join := (attributes.get? (lit "stroke-linejoin")).getD []
  return { transform, fill, stroke, line := { width, cap, join } }

end Style
end Pictogram
