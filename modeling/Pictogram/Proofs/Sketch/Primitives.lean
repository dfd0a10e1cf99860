import Pictogram.Proofs.Sketch.PathSteps

/-! # Steps as programs of single segments

`SketchM` programs work on a sketch in place.  The only way to draw is `SketchM.add`: it refuses a finished sketch, and
otherwise puts a segment behind the others and moves the pen on.  Everything else is a sequence of such additions: a line to the
start looks at the pen of the sketch, a path command offsets its points by that pen and hands its control point on to the
next command, and horizontal and vertical lines look at the pen once for every line.  A program that fails leaves behind
what it has drawn.

What a program draws is an outline that is known from the sketch at its beginning (`SketchM.Adds`), and programs in
sequence draw their outlines in sequence (`SketchM.Adds.bind`).  So running the program of a step is performing the step
(`SketchM.attempt_program`). -/

namespace Pictogram

theorem Sketch.extend_nil (s : Sketch) : s.extend [] = s := by
  simp [Sketch.extend, Pen.trace]

/-- Every step but the finish adds its outline, if it may, and ends with its fault. -/
theorem Sketch.perform_eq {step : SketchStep} (hstep : step ≠ .finish) (s : Sketch) :
    s.perform step = if s.finished && !(step.outline s.pen).1.isEmpty then (s, some .finished)
      else (s.extend (step.outline s.pen).1, (step.outline s.pen).2.map .fault) := by
  simp [perform, hstep]

theorem Pen.start_trace_closing (p : Pen) : (p.trace p.closing).start = p.start := by
  unfold closing
  split <;> rfl

/-- Programs that work on a sketch and may fail. -/
abbrev SketchM := EStateM SketchError Sketch

namespace SketchM

/-! ### Programs -/

def add (segment : Segment) : SketchM Unit := do
  let s ← get
  if s.finished then throw .finished
  set { s with segments := s.segments.push segment, pen := s.pen.after segment }

def pen : SketchM Pen := do
  let s ← get
  return s.pen

/-- What the points of a command are offset by. -/
def base (relative : Bool) : SketchM Point := do
  let p ← pen
  return if relative then p.point else .origin

def lineToStart : SketchM Unit := do
  let p ← pen
  if !p.point.coincides p.start then add (.lineTo p.start)

/-- The segments of a command, given the control point left by the command before; the result is its own. -/
def command (control : Point) : PathCommand → SketchM Point
  | .move relative points => do
      let b ← base relative
      (PathCommand.moveOutline (points.map (· + b))).forM add
      return (← pen).point
  | .line relative points => do
      let b ← base relative
      points.forM fun p => add (.lineTo (p + b))
      return (← pen).point
  | .horizontal relative xs => do
      let first ← pen
      xs.forM fun x => do add (.lineTo ⟨if relative then first.point.x + x else x, (← pen).point.y⟩)
      return (← pen).point
  | .vertical relative ys => do
      let first ← pen
      ys.forM fun y => do add (.lineTo ⟨(← pen).point.x, if relative then first.point.y + y else y⟩)
      return (← pen).point
  | .curve relative groups => do
      let b ← base relative
      groups.foldlM (fun _ (p, q, r) => do add (.cubeTo (p + b) (q + b) (r + b)); return q + b) control
  | .smooth relative groups => do
      let first ← pen
      let b ← base relative
      groups.foldlM (fun _ (q, r) => do add (.cubeTo (first.point.scale 2 - control) (q + b) (r + b)); return q + b) control
  | .close => do
      lineToStart
      return (← pen).start

def commands (control : Point) : List PathCommand → SketchM Unit
  | [] => return
  | c :: cs => do
      let control ← command control c
      commands control cs

/-- The commands of path data up to its first fault. -/
def pathCommands (d : Text) : SketchM Unit := do
  commands (← pen).point (PathData.parse d).1

def pathData (d : Text) : SketchM Unit := do
  pathCommands d
  (PathData.parse d).2.forM fun fault => throw (.fault fault)

end SketchM

def SketchStep.program : SketchStep → SketchM Unit
  | segment s => SketchM.add s
  | backToStart => SketchM.lineToStart
  | path d => SketchM.pathData d
  | rect corner size => (Figure.rectOutline corner size).forM SketchM.add
  | ellipse center radii => (Figure.ellipseOutline center radii).forM SketchM.add
  | poly coordinates closed => (Figure.polyOutline coordinates closed).forM SketchM.add
  | finish => modify fun s => { s with finished := true }

namespace SketchM

/-- The sketch after a program, and what went wrong with it. -/
def attempt (x : SketchM Unit) (s : Sketch) : Sketch × Option SketchError :=
  match x.run s with
  | .ok _ s' => (s', none)
  | .error e s' => (s', some e)

/-! ### What programs draw -/

variable {α β : Type} {x : SketchM α} {f : α → SketchM β} {s : Sketch} {o o' : Outline} {a : α} {b : β}

/-- From `s`, the program draws an outline and returns a result; it is refused if there is something to draw on a finished
sketch. -/
def Adds (x : SketchM α) (s : Sketch) (o : Outline) (a : α) : Prop :=
  x.run s = if s.finished && !o.isEmpty then .error .finished s else .ok a (s.extend o)

theorem Adds.of_run (h : x.run s = .ok a s) : Adds x s [] a := by
  rw [Adds, h, Sketch.extend_nil]
  simp

/-- **Programs in sequence draw their outlines in sequence.** -/
theorem Adds.bind (hx : Adds x s o a) (hf : Adds (f a) (s.extend o) o' b) : Adds (x >>= f) s (o ++ o') b := by
  have hfinished : (s.extend o).finished = s.finished := rfl
  unfold Adds at hx hf ⊢
  rw [hfinished] at hf
  cases hs : s.finished with
  | false =>
      simp only [hs, Bool.false_and, Bool.false_eq_true, if_false] at hx hf ⊢
      rw [EStateM.run_bind, hx, Sketch.extend_append]
      exact hf
  | true =>
      cases o with
      | nil =>
          rw [Sketch.extend_nil] at hx hf
          simp only [hs, List.isEmpty_nil, Bool.not_true, Bool.and_false, Bool.false_eq_true, if_false] at hx hf
          rw [EStateM.run_bind, hx, List.nil_append]
          exact hf
      | cons segment o =>
          simp only [hs, List.isEmpty_cons, Bool.not_false, Bool.and_true, if_true] at hx
          rw [EStateM.run_bind, hx]
          rfl

/-- A program that only looks at the sketch, and then another. -/
theorem Adds.bind_nil (hx : Adds x s [] a) (hf : Adds (f a) s o b) : Adds (x >>= f) s o b :=
  hx.bind (by rwa [Sketch.extend_nil])

/-- A program, and then another that only looks at the sketch. -/
theorem Adds.bind_read (hx : Adds x s o a) (hf : Adds (f a) (s.extend o) [] b) : Adds (x >>= f) s o b := by
  have h := hx.bind hf
  rwa [List.append_nil] at h

theorem adds_pure (s : Sketch) (a : α) : Adds (pure a) s [] a := .of_run rfl

theorem adds_pen (s : Sketch) : Adds pen s [] s.pen := .of_run rfl

theorem adds_base (relative : Bool) (s : Sketch) : Adds (base relative) s [] (if relative then s.pen.point else .origin) :=
  .of_run rfl

theorem adds_add (segment : Segment) (s : Sketch) : Adds (add segment) s [segment] () := by
  cases hs : s.finished with
  | false => simp [Adds, add, Sketch.extend, Pen.trace, hs]
  | true => simp [Adds, add, hs]

/-- A loop draws a segment in every round, as long as the sketch looks the same to the rounds that follow. -/
theorem Adds.forM (look : Sketch → Prop) {body : β → SketchM Unit} {segment : β → Segment}
    (hbody : ∀ s y, look s → Adds (body y) s [segment y] () ∧ look (s.extend [segment y])) (ys : List β) (hs : look s) :
    Adds (ys.forM body) s (ys.map segment) () := by
  induction ys generalizing s with
  | nil => exact adds_pure s ()
  | cons y ys ih =>
      obtain ⟨hround, hlook⟩ := hbody s y hs
      exact hround.bind (ih hlook)

/-- A loop that hands a point from round to round. -/
theorem Adds.foldlM {body : Point → β → SketchM Point} {segment : β → Segment} {next : β → Point}
    (hbody : ∀ s p y, Adds (body p y) s [segment y] (next y)) (ys : List β) (p : Point) (s : Sketch) :
    Adds (ys.foldlM body p) s (ys.map segment) ((ys.map next).getLast?.getD p) := by
  induction ys generalizing s p with
  | nil => exact adds_pure s p
  | cons y ys ih =>
      rw [List.map_cons, List.map_cons, List.getLast?_cons, Option.getD_some]
      exact (hbody s p y).bind (ih (next y) _)

theorem adds_forM_add (o : Outline) (s : Sketch) : Adds (o.forM add) s o () := by
  have h := Adds.forM (fun _ => True) (fun s y _ => ⟨adds_add y s, trivial⟩) o (s := s) trivial
  rwa [List.map_id'] at h

theorem adds_lineToStart (s : Sketch) : Adds lineToStart s s.pen.closing () := by
  refine (adds_pen s).bind_nil ?_
  unfold Pen.closing
  cases s.pen.point.coincides s.pen.start with
  | true => exact adds_pure s ()
  | false => exact adds_add _ s

/-! ### What the programs of commands and steps draw -/

theorem adds_command (control : Point) (c : PathCommand) (s : Sketch) :
    Adds (command control c) s (c.draw ⟨s.pen, control⟩).1 (c.draw ⟨s.pen, control⟩).2.control := by
  cases c with
  | move relative points =>
      refine (adds_base relative s).bind_nil ?_
      exact (adds_forM_add _ s).bind_read ((adds_pen _).bind_nil (adds_pure _ _))
  | line relative points =>
      refine (adds_base relative s).bind_nil ?_
      refine (Adds.forM (fun _ => True) ?_ points trivial).bind_read ((adds_pen _).bind_nil (adds_pure _ _))
      intro s p _
      exact ⟨adds_add _ s, trivial⟩
  | horizontal relative xs =>
      refine (adds_pen s).bind_nil ?_
      refine (Adds.forM (fun t => t.pen.point.y = s.pen.point.y) ?_ xs rfl).bind_read
        ((adds_pen _).bind_nil (adds_pure _ _))
      intro t x ht
      refine ⟨(adds_pen t).bind_nil ?_, rfl⟩
      rw [ht]
      exact adds_add _ t
  | vertical relative ys =>
      refine (adds_pen s).bind_nil ?_
      refine (Adds.forM (fun t => t.pen.point.x = s.pen.point.x) ?_ ys rfl).bind_read
        ((adds_pen _).bind_nil (adds_pure _ _))
      intro t y ht
      refine ⟨(adds_pen t).bind_nil ?_, rfl⟩
      rw [ht]
      exact adds_add _ t
  | curve relative groups =>
      refine (adds_base relative s).bind_nil (Adds.foldlM ?_ groups control s)
      intro t _ group
      exact (adds_add _ t).bind_read (adds_pure _ _)
  | smooth relative groups =>
      refine (adds_pen s).bind_nil ((adds_base relative s).bind_nil (Adds.foldlM ?_ groups control s))
      intro t _ group
      exact (adds_add _ t).bind_read (adds_pure _ _)
  | close =>
      refine (adds_lineToStart s).bind_read ((adds_pen _).bind_nil ?_)
      rw [show (s.extend s.pen.closing).pen.start = s.pen.start from Pen.start_trace_closing s.pen]
      exact adds_pure _ _

theorem adds_commands (control : Point) (cs : List PathCommand) (s : Sketch) :
    Adds (commands control cs) s (PathCommand.drawAll ⟨s.pen, control⟩ cs) () := by
  induction cs generalizing control s with
  | nil => exact adds_pure s ()
  | cons c cs ih =>
      have htracer : (c.draw ⟨s.pen, control⟩).2 =
          ⟨(s.extend (c.draw ⟨s.pen, control⟩).1).pen, (c.draw ⟨s.pen, control⟩).2.control⟩ := by
        rw [show (s.extend (c.draw ⟨s.pen, control⟩).1).pen = _ from (PathCommand.pen_draw c ⟨s.pen, control⟩).symm]
      refine (adds_command control c s).bind ?_
      rw [htracer]
      exact ih _ _

/-- A program that draws the outline of a step without a fault does what the step does. -/
theorem Adds.attempt_eq {x : SketchM Unit} (step : SketchStep) (hx : Adds x s (step.outline s.pen).1 ())
    (hfault : (step.outline s.pen).2 = none) (hstep : step ≠ .finish) : attempt x s = s.perform step := by
  rw [attempt, hx, Sketch.perform_eq hstep, hfault]
  split_ifs <;> rfl

theorem attempt_pathData (d : Text) (s : Sketch) : attempt (pathData d) s = s.perform (.path d) := by
  have hcommands : Adds (pathCommands d) s ((SketchStep.path d).outline s.pen).1 () :=
    (adds_pen s).bind_nil (adds_commands _ _ s)
  have hfault : ((SketchStep.path d).outline s.pen).2 = (PathData.parse d).2 := rfl
  rw [attempt, pathData, EStateM.run_bind, hcommands, Sketch.perform_eq (by simp), hfault]
  split_ifs
  · rfl
  · cases (PathData.parse d).2 <;> rfl

/-- **Running the program of a step is performing the step.** -/
theorem attempt_program (step : SketchStep) (s : Sketch) : attempt step.program s = s.perform step := by
  cases step with
  | segment segment => exact (adds_add segment s).attempt_eq (.segment segment) rfl nofun
  | backToStart => exact (adds_lineToStart s).attempt_eq .backToStart rfl nofun
  | path d => exact attempt_pathData d s
  | rect corner size => exact (adds_forM_add _ s).attempt_eq (.rect corner size) rfl nofun
  | ellipse center radii => exact (adds_forM_add _ s).attempt_eq (.ellipse center radii) rfl nofun
  | poly coordinates closed => exact (adds_forM_add _ s).attempt_eq (.poly coordinates closed) rfl nofun
  | finish => simp [Sketch.perform, SketchStep.outline, SketchStep.program, attempt, Sketch.extend_nil]

end SketchM
end Pictogram
