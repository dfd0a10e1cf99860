import Pictogram.Decimal.Layout
import Pictogram.Plane

/-! # Outlines

An outline is a list of segments.  A pen that follows it has a current point and the start of the
current subpath: a move sets both, a close returns the pen to the start. -/

namespace Pictogram

inductive Segment where
  | moveTo (target : Point)
  | lineTo (target : Point)
  | cubeTo (control₁ control₂ target : Point)
  | close
deriving DecidableEq, Repr

abbrev Outline := List Segment

/-- Where drawing stands: the current point and the start of its subpath. -/
structure Pen where
  point : Point
  start : Point
deriving DecidableEq, Repr

namespace Pen

/-- Where every outline begins. -/
def home : Pen := ⟨.origin, .origin⟩

def after (p : Pen) : Segment → Pen
  | .moveTo target => ⟨target, target⟩
  | .lineTo target => ⟨target, p.start⟩
  | .cubeTo _ _ target => ⟨target, p.start⟩
  | .close => ⟨p.start, p.start⟩

/-- The pen at the end of an outline. -/
def trace (p : Pen) (o : Outline) : Pen := o.foldl after p

/-- The line back to the start of the subpath, where one is needed. -/
def closing (p : Pen) : Outline :=
  if p.point.coincides p.start then [] else [.lineTo p.start]

end Pen

/-! ### Path text -/

def Point.pathText (p : Point) : Text := Decimal.ofFloat p.x ++ lit " " ++ Decimal.ofFloat p.y

def Segment.pathText : Segment → Text
  | moveTo p => lit "M" ++ p.pathText
  | lineTo p => lit "L" ++ p.pathText
  | cubeTo p q r => lit "C" ++ p.pathText ++ lit " " ++ q.pathText ++ lit " " ++ r.pathText
  | close => lit "Z"

/-- An outline as absolute path data. -/
def Outline.pathText (o : Outline) : Text := o.flatMap Segment.pathText

end Pictogram
