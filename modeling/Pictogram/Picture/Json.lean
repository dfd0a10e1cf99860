import Pictogram.Json
import Pictogram.Picture.Basic

/-! # Pictures as JSON -/

namespace Pictogram
namespace Json

/-- An object with the given fields. -/
def record (fields : List (String × Json)) : Json := object (fields.map fun (key, v) => (lit key, v))

def ofPoint (p : Point) : Json := record [("x", number p.x), ("y", number p.y)]

def ofAffine (t : Affine) : Json :=
  record [("a", number t.a), ("b", number t.b), ("c", number t.c), ("d", number t.d), ("e", number t.e),
    ("f", number t.f)]

def ofPaint : Paint → Json
  | .none => record [("type", text (lit "none"))]
  | .solid c => record [("type", text (lit "color")), ("argb", natural c.argb.toNat)]

def ofLineStyle (s : LineStyle) : Json :=
  record [("width", number s.width), ("linecap", text s.cap), ("linejoin", text s.join)]

def ofSegment : Segment → Json
  | .moveTo p => record [("op", text (lit "moveTo")), ("to", ofPoint p)]
  | .lineTo p => record [("op", text (lit "lineTo")), ("to", ofPoint p)]
  | .cubeTo p q r =>
    record [("op", text (lit "cubeTo")), ("ctrl1", ofPoint p), ("ctrl2", ofPoint q), ("to", ofPoint r)]
  | .close => record [("op", text (lit "close"))]

def ofShape (s : Shape) : Json :=
  record [("transform", ofAffine s.transform), ("program", array (s.outline.map ofSegment)), ("fill", ofPaint s.fill),
    ("stroke", ofPaint s.stroke), ("strokeStyle", ofLineStyle s.line)]

def ofViewBox : Option ViewBox → Json
  | none => null
  | some b => record [("min", ofPoint b.min), ("max", ofPoint b.max)]

end Json
end Pictogram
