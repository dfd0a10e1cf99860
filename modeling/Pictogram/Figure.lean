import Pictogram.Path.Trace
import Pictogram.Text.Table

/-! # Figures

The seven kinds of shape elements, read from their attributes, and their outlines.  A rectangle
starts at its origin corner and is closed; a circle or ellipse is four cubic curves that start and
end at the top; a polygon returns to its first vertex by a line of its own unless it is already
there. -/

namespace Pictogram

inductive FigureKind where
  | rect
  | circle
  | ellipse
  | line
  | polygon
  | polyline
  | path
deriving DecidableEq, Repr

namespace FigureKind

/-- The kinds by element name. -/
def all : List (Text × FigureKind) :=
  [(lit "rect", rect), (lit "circle", circle), (lit "ellipse", ellipse), (lit "line", line),
    (lit "polygon", polygon), (lit "polyline", polyline), (lit "path", path)]

def ofName? (name : Text) : Option FigureKind := all.lookup name

end FigureKind

/-- Polygons and polylines hold a flat list of coordinates. -/
inductive Figure where
  | rect (corner size : Point)
  | circle (center : Point) (radius : Float)
  | ellipse (center : Point) (radiusX radiusY : Float)
  | line (first last : Point)
  | polygon (coordinates : List Float)
  | polyline (coordinates : List Float)
  | path (d : Text)
deriving DecidableEq, Repr

namespace Figure

/-! ### Outlines -/

def rectOutline (corner size : Point) : Outline :=
  [.moveTo corner, .lineTo (corner + ⟨size.x, 0⟩), .lineTo (corner + size), .lineTo (corner + ⟨0, size.y⟩), .close]

/-- The control distance of a cubic quarter of the unit circle. -/
def kappa : Float := 4 * (1.4142135623730951 - 1) / 3

/-- An ellipse as a circle of radius `radii.x` whose heights are scaled; nothing if that is zero. -/
def ellipseOutline (center radii : Point) : Outline :=
  let r := radii.x
  if r == 0 then []
  else
    let scale := radii.y / r
    let curve := r * kappa
    let cx := center.x
    let cy := center.y
    let top : Point := ⟨cx, cy - r * scale⟩
    [.moveTo top,
      .cubeTo ⟨cx + curve, cy - r * scale⟩ ⟨cx + r, cy - curve * scale⟩ ⟨cx + r, cy⟩,
      .cubeTo ⟨cx + r, cy + curve * scale⟩ ⟨cx + curve, cy + r * scale⟩ ⟨cx, cy + r * scale⟩,
      .cubeTo ⟨cx - curve, cy + r * scale⟩ ⟨cx - r, cy + curve * scale⟩ ⟨cx - r, cy⟩,
      .cubeTo ⟨cx - r, cy - curve * scale⟩ ⟨cx - curve, cy - r * scale⟩ top]

/-- A line through at least two points; a closed one returns to the first point. -/
def polyOutline (coordinates : List Float) (closed : Bool) : Outline :=
  match Point.pairs coordinates with
  | first :: second :: rest =>
    let last := (second :: rest).getLast (by simp)
    .moveTo first :: (second :: rest).map .lineTo ++
      if closed && !last.coincides first then [.lineTo first] else []
  | _ => []

def outline : Figure → Except Fault Outline
  | rect corner size => .ok (rectOutline corner size)
  | circle center radius => .ok (ellipseOutline center ⟨radius, radius⟩)
  | ellipse center radiusX radiusY => .ok (ellipseOutline center ⟨radiusX, radiusY⟩)
  | line first last => .ok [.moveTo first, .lineTo last]
  | polygon coordinates => .ok (polyOutline coordinates true)
  | polyline coordinates => .ok (polyOutline coordinates false)
  | path d => PathData.outline d

/-! ### Reading -/

/-- Reads a coordinate list of even length. -/
def readCoordinates (value : Text) : Except Fault (List Float) :=
  let coordinates := Numeral.values value
  if coordinates.length % 2 = 0 then .ok coordinates else .error (.oddPoints value)

/-- Reads the figure of an element; the first bad attribute, in the order below, is the fault. -/
def read (kind : FigureKind) (attributes : Table) : Except Fault Figure := do
  let number (name : String) : Except Fault Float := readNumber (lit name) (attributes.get? (lit name))
  match kind with
  | .rect =>
    let x ← number "x"
    let y ← number "y"
    let width ← number "width"
    let height ← number "height"
    return rect ⟨x, y⟩ ⟨width, height⟩
  | .circle =>
    let x ← number "cx"
    let y ← number "cy"
    let r ← number "r"
    return circle ⟨x, y⟩ r
  | .ellipse =>
    let x ← number "cx"
    let y ← number "cy"
    let rx ← number "rx"
    let ry ← number "ry"
    return ellipse ⟨x, y⟩ rx ry
  | .line =>
    let x₁ ← number "x1"
    let y₁ ← number "y1"
    let x₂ ← number "x2"
    let y₂ ← number "y2"
    return line ⟨x₁, y₁⟩ ⟨x₂, y₂⟩
  | .polygon => return polygon (← readCoordinates ((attributes.get? (lit "points")).getD []))
  | .polyline => return polyline (← readCoordinates ((attributes.get? (lit "points")).getD []))
  | .path => return path ((attributes.get? (lit "d")).getD [])

end Figure
end Pictogram
