import Pictogram.Decimal.Numeral
import Pictogram.Fault
import Pictogram.Text.Blank

/-! # Points and affine maps of the plane

Coordinates are doubles.  `Point.coincides` and `Affine.isIdentity` compare as doubles compare, so
the two zeros are equal and NaN equals nothing; plain `=` tells the zeros apart. -/

namespace Pictogram

structure Point where
  x : Float
  y : Float
deriving DecidableEq, Repr

namespace Point

def origin : Point := ⟨0, 0⟩

instance : Add Point := ⟨fun p q => ⟨p.x + q.x, p.y + q.y⟩⟩

instance : Sub Point := ⟨fun p q => ⟨p.x - q.x, p.y - q.y⟩⟩

def scale (p : Point) (s : Float) : Point := ⟨p.x * s, p.y * s⟩

/-- Equality of both coordinates, as doubles. -/
def coincides (p q : Point) : Bool := p.x == q.x && p.y == q.y

/-- The points of a flat coordinate list; an odd coordinate at the end is dropped. -/
def pairs : List Float → List Point
  | x :: y :: rest => ⟨x, y⟩ :: pairs rest
  | _ => []

end Point

/-- The map `(x, y) ↦ (a * x + c * y + e, b * x + d * y + f)`. -/
structure Affine where
  a : Float
  b : Float
  c : Float
  d : Float
  e : Float
  f : Float
deriving DecidableEq, Repr

namespace Affine

def identity : Affine := ⟨1, 0, 0, 1, 0, 0⟩

def isIdentity (t : Affine) : Bool :=
  t.a == 1 && t.b == 0 && t.c == 0 && t.d == 1 && t.e == 0 && t.f == 0

/-- What stands between `matrix(` and the final `)` of a transform, blanks around it ignored. -/
def matrixBody? (value : Text) : Option Text :=
  match Text.stripFront? (lit "matrix(") value.trim with
  | none => none
  | some body => if body.getLast? = some (unit ')') then some body.dropLast else none

/-- Reads a transform; only `matrix(a b c d e f)` is supported. -/
def read (value : Text) : Except Fault Affine :=
  match matrixBody? value with
  | none => .error (.unsupportedTransform value)
  | some body =>
    match Numeral.values body with
    | [a, b, c, d, e, f] => .ok ⟨a, b, c, d, e, f⟩
    | _ => .error (.malformedMatrix value)

end Affine

/-- The visible part of the plane. -/
structure ViewBox where
  min : Point
  max : Point
deriving DecidableEq, Repr

/-- Reads a view box: four numbers, the corners. -/
def ViewBox.read (value : Text) : Except Fault ViewBox :=
  match Numeral.values value with
  | [minX, minY, maxX, maxY] => .ok ⟨⟨minX, minY⟩, ⟨maxX, maxY⟩⟩
  | _ => .error (.invalidViewBox value)

/-- Reads the view box of a root element, which may be missing. -/
def ViewBox.readOptional : Option Text → Except Fault (Option ViewBox)
  | none => .ok none
  | some value => (ViewBox.read value).map some

/-- Reads a number attribute; a missing or blank value is zero. -/
def readNumber (key : Text) (value : Option Text) : Except Fault Float :=
  match value with
  | none => .ok 0
  | some v =>
    if v.trim = [] then .ok 0
    else match Numeral.scan? v.trim with
      | some (n, []) => .ok n.value
      | _ => .error (.invalidNumber key v)

end Pictogram
