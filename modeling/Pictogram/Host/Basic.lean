import Pictogram.Picture.Basic

/-! # Drawing hosts

A host takes drawing calls one by one; a call may fail, and the state of the host goes on either
way.  Replaying a picture makes the calls of its shapes in order and stops at the first failure.  A
shape with a transform is drawn between a push and a pop: once the push has succeeded the pop is made
even if drawing fails, and a failure of the pop takes the place of an earlier one.

`Shape.calls` lists the calls of a shape for those who write them down; drawing the shape makes them in
that order (`Shape.drawOn_eq_perform`). -/

namespace Pictogram

/-- Something that takes calls of type `κ`, has a state of type `σ` and fails with an `ε`. -/
abbrev Host (κ σ ε : Type) := κ → EStateM ε σ Unit

inductive Call where
  | pushTransform (t : Affine)
  | popTransform
  | beginPath
  | moveTo (target : Point)
  | lineTo (target : Point)
  | cubicTo (control₁ control₂ target : Point)
  | closePath
  | fill (color : Color)
  | stroke (color : Color) (line : LineStyle)
deriving DecidableEq, Repr

def Segment.call : Segment → Call
  | moveTo p => .moveTo p
  | lineTo p => .lineTo p
  | cubeTo p q r => .cubicTo p q r
  | close => .closePath

namespace Shape

def fillCalls (s : Shape) : List Call :=
  match s.fill with
  | .none => []
  | .solid c => [.fill c]

def strokeCalls (s : Shape) : List Call :=
  match s.stroke with
  | .none => []
  | .solid c => [.stroke c s.line]

/-- The calls that draw a shape in its own coordinates. -/
def calls (s : Shape) : List Call :=
  .beginPath :: s.outline.map Segment.call ++ s.fillCalls ++ s.strokeCalls

end Shape

namespace Host

variable {κ σ ε : Type}

/-- Makes calls in order, up to the first failure. -/
def perform (h : Host κ σ ε) : List κ → EStateM ε σ Unit
  | [] => pure ()
  | c :: cs => do
    h c
    perform h cs

/-- Makes a last call after a body, whatever came of the body. -/
def ensuring (h : Host κ σ ε) (body : EStateM ε σ Unit) (last : κ) : EStateM ε σ Unit := fun s =>
  match body s with
  | .ok _ s => h last s
  | .error e s =>
    match h last s with
    | .ok _ s => .error e s
    | .error e' s => .error e' s

end Host

variable {σ ε : Type}

def Segment.drawOn (h : Host Call σ ε) : Segment → EStateM ε σ Unit
  | moveTo p => h (.moveTo p)
  | lineTo p => h (.lineTo p)
  | cubeTo p q r => h (.cubicTo p q r)
  | close => h .closePath

namespace Shape

/-- Draws a shape in its own coordinates. -/
def drawOn (s : Shape) (h : Host Call σ ε) : EStateM ε σ Unit := do
  h .beginPath
  s.outline.forM (Segment.drawOn h)
  if let .solid c := s.fill then h (.fill c)
  if let .solid c := s.stroke then h (.stroke c s.line)

def replay (s : Shape) (h : Host Call σ ε) : EStateM ε σ Unit :=
  if s.transform.isIdentity then s.drawOn h
  else do
    h (.pushTransform s.transform)
    h.ensuring (s.drawOn h) .popTransform

/-! ### The calls that are made -/

theorem perform_outline (h : Host Call σ ε) (o : Outline) (cs : List Call) :
    h.perform (o.map Segment.call ++ cs) = (do o.forM (Segment.drawOn h); h.perform cs) := by
  induction o with
  | nil => simp
  | cons segment o ih => cases segment <;> simp [Host.perform, Segment.call, Segment.drawOn, ih]

theorem drawOn_eq_perform (s : Shape) (h : Host Call σ ε) : s.drawOn h = h.perform s.calls := by
  unfold drawOn calls fillCalls strokeCalls
  rw [List.append_assoc, List.cons_append, Host.perform, perform_outline]
  cases s.fill <;> cases s.stroke <;> simp [Host.perform]

theorem replay_eq (s : Shape) (h : Host Call σ ε) :
    s.replay h = if s.transform.isIdentity then h.perform s.calls
      else (do h (.pushTransform s.transform); h.ensuring (h.perform s.calls) .popTransform) := by
  rw [replay, drawOn_eq_perform]

end Shape

/-- Draws shapes in order, up to the first failure. -/
def Shape.replayAll (h : Host Call σ ε) : List Shape → EStateM ε σ Unit
  | [] => pure ()
  | s :: ss => do
    s.replay h
    replayAll h ss

/-- Draws a picture on a host. -/
def Picture.replay (p : Picture) (h : Host Call σ ε) : EStateM ε σ Unit := Shape.replayAll h p.shapes

end Pictogram
