import Pictogram.Proofs.Sketch.Primitives

/-! # Runs of a sketch

Any number of steps may be performed one after the other, also after one that has failed.  The sketch keeps its pen beside
its outline, and the two never drift apart: the pen is where the last segment ends and its subpath starts at the last move
(`Sketch.Consistent`).  A single segment keeps it so (`Sketch.Consistent.add`), hence every step and every run.  Outlines
only grow, and a finished sketch is never changed again (`Sketch.run_of_finished`). -/

namespace Pictogram

def Segment.moveTarget? : Segment → Option Point
  | moveTo target => some target
  | _ => none

/-- Where a segment ends if its subpath begins at `start`. -/
def Segment.target (start : Point) : Segment → Point
  | moveTo target | lineTo target | cubeTo _ _ target => target
  | close => start

/-- The target of the last move, or the origin. -/
def Outline.lastMove (o : Outline) : Point := (o.filterMap Segment.moveTarget?).getLast?.getD .origin

namespace Sketch

variable {s : Sketch} {step : SketchStep}

/-- The pen is where the outline says. -/
structure Consistent (s : Sketch) : Prop where
  start : s.pen.start = s.outline.lastMove
  point : s.pen.point = (s.outline.getLast?.map (Segment.target s.pen.start)).getD .origin

theorem outline_extend (s : Sketch) (o : Outline) : (s.extend o).outline = s.outline ++ o := by
  simp [outline, extend]

theorem consistent_empty : empty.Consistent := ⟨rfl, rfl⟩

theorem Consistent.add (h : s.Consistent) (segment : Segment) : (s.extend [segment]).Consistent := by
  have hpen : (s.extend [segment]).pen = s.pen.after segment := rfl
  constructor
  · rw [hpen, outline_extend, Outline.lastMove, List.filterMap_append]
    cases segment with
    | moveTo target => simp [Pen.after, Segment.moveTarget?]
    | lineTo | cubeTo | close => simp [Pen.after, Segment.moveTarget?, h.start, Outline.lastMove]
  · rw [hpen, outline_extend, List.getLast?_concat]
    cases segment <;> rfl

theorem Consistent.extend (h : s.Consistent) (o : Outline) : (s.extend o).Consistent := by
  induction o generalizing s with
  | nil => rwa [extend_nil]
  | cons segment o ih =>
      rw [← List.singleton_append, extend_append]
      exact ih (h.add segment)

/-! ### Steps -/

theorem perform_of_not_finished (hs : s.finished = false) (step : SketchStep) :
    s.perform step =
      ({ s.extend (step.outline s.pen).1 with finished := step = .finish }, (step.outline s.pen).2.map .fault) := by
  simp [perform, hs, extend]

/-- A finished sketch stays as it is.  A step that would draw something is refused. -/
theorem perform_of_finished (hs : s.finished = true) (step : SketchStep) :
    s.perform step =
      (s, if (step.outline s.pen).1 = [] then (step.outline s.pen).2.map .fault else some .finished) := by
  by_cases houtline : (step.outline s.pen).1 = []
  · have hstays : ({ s with finished := true } : Sketch) = s := by rw [← hs]
    simp [perform, houtline, hs, extend_nil, hstays]
  · simp [perform, houtline, hs]

/-- The same step on the sketch as it was before it was finished tells what a finished sketch does. -/
theorem perform_eq_reopened (hs : s.finished = true) (step : SketchStep) :
    s.perform step =
      (s, if ({ s with finished := false }.perform step).1.outline = s.outline
        then ({ s with finished := false }.perform step).2 else some .finished) := by
  have hopen := perform_of_not_finished (s := { s with finished := false }) rfl step
  have hgrows : ({ s with finished := false }.perform step).1.outline = s.outline ++ (step.outline s.pen).1 := by
    rw [hopen]
    exact outline_extend s _
  rw [perform_of_finished hs, hgrows, hopen]
  simp only [List.append_right_eq_self]

/-- What a step leaves is the sketch with more segments, finished or not. -/
theorem exists_perform_eq (s : Sketch) (step : SketchStep) :
    ∃ o finished, (s.perform step).1 = { s.extend o with finished := finished } := by
  cases hs : s.finished with
  | false => exact ⟨_, _, congrArg Prod.fst (perform_of_not_finished hs step)⟩
  | true =>
      refine ⟨[], true, ?_⟩
      rw [perform_of_finished hs, extend_nil, ← hs]

theorem Consistent.perform (h : s.Consistent) (step : SketchStep) : (s.perform step).1.Consistent := by
  obtain ⟨o, finished, hafter⟩ := exists_perform_eq s step
  rw [hafter]
  exact ⟨(h.extend o).start, (h.extend o).point⟩

theorem outline_perform (s : Sketch) (step : SketchStep) : s.outline <+: (s.perform step).1.outline := by
  obtain ⟨o, finished, hafter⟩ := exists_perform_eq s step
  rw [hafter]
  exact ⟨o, (outline_extend s o).symm⟩

/-! ### Runs -/

/-- The sketch after some steps, whatever went wrong with them. -/
def run (s : Sketch) (steps : List SketchStep) : Sketch := steps.foldl (fun s step => (s.perform step).1) s

theorem run_append (s : Sketch) (steps more : List SketchStep) : s.run (steps ++ more) = (s.run steps).run more :=
  List.foldl_append

/-- What every step keeps, every run keeps. -/
theorem run_induction (kept : Sketch → Prop) (hstep : ∀ s step, kept s → kept (s.perform step).1) (hs : kept s)
    (steps : List SketchStep) : kept (s.run steps) := by
  induction steps generalizing s with
  | nil => exact hs
  | cons step steps ih => exact ih (hstep s step hs)

theorem Consistent.run (h : s.Consistent) (steps : List SketchStep) : (s.run steps).Consistent :=
  run_induction Consistent (fun _ step h => h.perform step) h steps

theorem outline_run (s : Sketch) (steps : List SketchStep) : s.outline <+: (s.run steps).outline :=
  run_induction (s.outline <+: ·.outline) (fun t step h => h.trans (outline_perform t step)) (List.prefix_refl _) steps

theorem run_of_finished (hs : s.finished = true) (steps : List SketchStep) : s.run steps = s := by
  refine run_induction (· = s) ?_ rfl steps
  rintro _ step rfl
  rw [perform_of_finished hs]

theorem run_finish (s : Sketch) (steps : List SketchStep) : s.run (.finish :: steps) = { s with finished := true } := by
  have hfinish : (s.perform .finish).1 = { s with finished := true } := by
    simp [Sketch.perform, SketchStep.outline, extend_nil]
  show (s.perform .finish).1.run steps = _
  rw [hfinish]
  exact run_of_finished rfl steps

/-- **A sketch over a whole run.**  Whatever steps are performed on an empty sketch, and whether they fail or not, the pen is
where the outline says, and more steps only add to the outline.  Once the sketch is finished nothing changes any more: a
step that would add to the outline is refused, and any other has the outcome that it would have had.  Steps are sequences
of single segments, each of which is refused or moves the pen on. -/
theorem run_invariant (steps : List SketchStep) :
    (empty.run steps).Consistent ∧
    (∀ more, (empty.run steps).outline <+: (empty.run (steps ++ more)).outline) ∧
    (∀ more, empty.run (steps ++ .finish :: more) = { empty.run steps with finished := true }) ∧
    (∀ more step, (empty.run (steps ++ .finish :: more)).perform step =
      (empty.run (steps ++ .finish :: more),
        if ({ empty.run steps with finished := false }.perform step).1.outline = (empty.run steps).outline
        then ({ empty.run steps with finished := false }.perform step).2 else some .finished)) ∧
    (∀ step, step.program.attempt (empty.run steps) = (empty.run steps).perform step) := by
  have hfinish (more : List SketchStep) :
      empty.run (steps ++ .finish :: more) = { empty.run steps with finished := true } := by
    rw [run_append]
    exact run_finish _ more
  refine ⟨consistent_empty.run steps, fun more => ?_, hfinish, fun more step => ?_, fun step => ?_⟩
  · rw [run_append]
    exact outline_run _ more
  · rw [hfinish]
    exact perform_eq_reopened rfl step
  · exact SketchM.attempt_program step _

end Sketch
end Pictogram
