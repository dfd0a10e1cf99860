import Pictogram.Figure

/-! # Sketches

A sketch grows an outline step by step and keeps track of the pen.  Once finished it takes no more
segments: a step that would add one is refused and changes nothing, while a step that adds none is
still allowed.  Path data adds its commands up to the first fault, which is then the outcome. -/

namespace Pictogram

structure Sketch where
  segments : Array Segment
  pen : Pen
  finished : Bool

inductive SketchError where
  | finished
  | fault (cause : Fault)
deriving DecidableEq, Repr

namespace SketchError

def message : SketchError → Text
  | finished => lit "PathBuilder: program already built"
  | fault cause => cause.message

end SketchError

inductive SketchStep where
  | segment (s : Segment)
  | backToStart
  | path (d : Text)
  | rect (corner size : Point)
  | ellipse (center radii : Point)
  | poly (coordinates : List Float) (closed : Bool)
  | finish
deriving DecidableEq, Repr

/-- What a step adds when the pen is at `p`, and the fault that ends it. -/
def SketchStep.outline (p : Pen) : SketchStep → Outline × Option Fault
  | segment s => ([s], none)
  | backToStart => (p.closing, none)
  | path d => PathData.trace p d
  | rect corner size => (Figure.rectOutline corner size, none)
  | ellipse center radii => (Figure.ellipseOutline center radii, none)
  | poly coordinates closed => (Figure.polyOutline coordinates closed, none)
  | finish => ([], none)

namespace Sketch

def empty : Sketch := ⟨#[], .home, false⟩

def outline (s : Sketch) : Outline := s.segments.toList

/-- Adds segments at the end. -/
def extend (s : Sketch) (o : Outline) : Sketch :=
  { s with segments := s.segments ++ o.toArray, pen := s.pen.trace o }

/-- The sketch after a step, and what went wrong with it. -/
def perform (s : Sketch) (step : SketchStep) : Sketch × Option SketchError :=
  match step.outline s.pen with
  | (o, fault) =>
    if s.finished && !o.isEmpty then (s, some .finished)
    else
      let s := s.extend o
      ({ s with finished := s.finished || step = .finish }, fault.map .fault)

end Sketch
end Pictogram
