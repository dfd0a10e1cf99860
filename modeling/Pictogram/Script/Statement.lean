import Pictogram.Host.Basic

/-! # Statements of an image script

A shape is written as statements on a value `host`: its calls one per line, and between a push and a
guarded pop if it has a transform.  Numbers are written in their shortest decimal text, colours as
eight hexadecimal digits, and texts in double quotes. -/

namespace Pictogram

inductive Statement where
  | call (c : Call)
  /-- Calls, with a last one that is made whatever came of them. -/
  | guarded (body : List Call) (last : Call)
deriving DecidableEq, Repr

/-- The statements that draw a shape. -/
def Shape.statements (s : Shape) : List Statement :=
  if s.transform.isIdentity then s.calls.map .call
  else [.call (.pushTransform s.transform), .guarded s.calls .popTransform]

namespace Script

def number (x : Float) : Text := Decimal.ofFloat x

/-- A record with the given fields. -/
def record (fields : List (String × Text)) : Text :=
  lit "\x7b " ++ (lit ", ").intercalate (fields.map fun (key, value) => lit key ++ lit ": " ++ value) ++ lit " \x7d"

def point (p : Point) : Text := record [("x", number p.x), ("y", number p.y)]

def affine (t : Affine) : Text :=
  record [("a", number t.a), ("b", number t.b), ("c", number t.c), ("d", number t.d), ("e", number t.e),
    ("f", number t.f)]

def color (c : Color) : Text := lit "0x" ++ Text.hex 8 c.argb.toNat

def lineStyle (s : LineStyle) : Text :=
  record [("width", number s.width), ("linecap", s.cap.quoted), ("linejoin", s.join.quoted)]

/-- The method of a call and its arguments. -/
def method : Call → String × List Text
  | .pushTransform t => ("pushTransform", [affine t])
  | .popTransform => ("popTransform", [])
  | .beginPath => ("beginPath", [])
  | .moveTo p => ("moveTo", [point p])
  | .lineTo p => ("lineTo", [point p])
  | .cubicTo p q r => ("cubicTo", [point p, point q, point r])
  | .closePath => ("closePath", [])
  | .fill c => ("fill", [color c])
  | .stroke c line => ("stroke", [color c, lineStyle line])

def call (c : Call) : Text :=
  lit "host." ++ lit (method c).1 ++ lit "(" ++ (lit ", ").intercalate (method c).2 ++ lit ")"

def indent (n : Nat) (line : Text) : Text := List.replicate n (unit '\t') ++ line

end Script

open Script in
/-- The lines of a statement. -/
def Statement.lines : Statement → List Text
  | call c => [Script.call c]
  | guarded body last =>
    lit "try \x7b" :: body.map (fun c => indent 1 (Script.call c)) ++
      [lit "\x7d finally \x7b", indent 1 (Script.call last), lit "\x7d"]

end Pictogram
