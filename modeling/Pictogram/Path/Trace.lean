import Pictogram.Outline
import Pictogram.Path.Command

/-! # What path commands draw

Commands are drawn one after the other.  All points of a relative command are offset by the pen as
it stood before the command.  Only the first point of a move opens a subpath; the others are lines.
The smooth curves of one command share their first control point, the reflection through the pen of
the control point left by the command before; a curve leaves its second control point, any other
command the pen. -/

namespace Pictogram

/-- A pen together with the control point that a smooth curve would reflect. -/
structure Tracer where
  pen : Pen
  control : Point
deriving DecidableEq, Repr

namespace Tracer

def ofPen (p : Pen) : Tracer := ⟨p, p.point⟩

/-- What the points of a command are offset by. -/
def base (s : Tracer) (relative : Bool) : Point := if relative then s.pen.point else .origin

/-- The reflection of the control point through the pen. -/
def reflected (s : Tracer) : Point := s.pen.point.scale 2 - s.control

/-- After an outline that leaves its end as the control point. -/
def restart (s : Tracer) (o : Outline) : Tracer := ofPen (s.pen.trace o)

/-- After an outline that leaves the last of the given control points. -/
def keep (s : Tracer) (o : Outline) (controls : List Point) : Tracer :=
  ⟨s.pen.trace o, controls.getLast?.getD s.control⟩

end Tracer

namespace PathCommand

/-- The segments of a move through the given points. -/
def moveOutline : List Point → Outline
  | [] => []
  | p :: ps => .moveTo p :: ps.map .lineTo

/-- The segments of a command, and the tracer after it. -/
def draw (s : Tracer) : PathCommand → Outline × Tracer
  | move relative points =>
    let o := moveOutline (points.map (· + s.base relative))
    (o, s.restart o)
  | line relative points =>
    let o := points.map fun p => Segment.lineTo (p + s.base relative)
    (o, s.restart o)
  | horizontal relative xs =>
    let o := xs.map fun x => Segment.lineTo ⟨if relative then s.pen.point.x + x else x, s.pen.point.y⟩
    (o, s.restart o)
  | vertical relative ys =>
    let o := ys.map fun y => Segment.lineTo ⟨s.pen.point.x, if relative then s.pen.point.y + y else y⟩
    (o, s.restart o)
  | curve relative groups =>
    let b := s.base relative
    let o := groups.map fun (p, q, r) => Segment.cubeTo (p + b) (q + b) (r + b)
    (o, s.keep o (groups.map fun (_, q, _) => q + b))
  | smooth relative groups =>
    let b := s.base relative
    let o := groups.map fun (q, r) => Segment.cubeTo s.reflected (q + b) (r + b)
    (o, s.keep o (groups.map fun (q, _) => q + b))
  | close => (s.pen.closing, ⟨s.pen.trace s.pen.closing, s.pen.start⟩)

/-- The segments of a list of commands. -/
def drawAll (s : Tracer) : List PathCommand → Outline
  | [] => []
  | c :: cs => (c.draw s).1 ++ drawAll (c.draw s).2 cs

end PathCommand

namespace PathData

/-- What path data draws from a pen up to its first fault, and that fault. -/
def trace (p : Pen) (d : Text) : Outline × Option Fault :=
  let (commands, fault) := parse d
  (PathCommand.drawAll (.ofPen p) commands, fault)

/-- The outline of path data on its own. -/
def outline (d : Text) : Except Fault Outline :=
  match trace .home d with
  | (o, none) => .ok o
  | (_, some f) => .error f

end PathData
end Pictogram
