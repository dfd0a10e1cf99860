import Pictogram.Figure
import Pictogram.Style

/-! # Pictures

A compiled document: its view box, if it has one, and its painted shapes in document order. -/

namespace Pictogram

structure Shape where
  transform : Affine
  outline : Outline
  fill : Paint
  stroke : Paint
  line : LineStyle
deriving DecidableEq, Repr

/-- The shape of a figure; `none` if it has neither fill nor stroke. -/
def Shape.ofFigure? (figure : Figure) (style : Style) : Except Fault (Option Shape) :=
  if style.isPainted then do
    let outline ← figure.outline
    return some { transform := style.transform, outline, fill := style.fill, stroke := style.stroke, line := style.line }
  else .ok none

structure Picture where
  viewBox : Option ViewBox
  shapes : List Shape
deriving DecidableEq, Repr

end Pictogram
