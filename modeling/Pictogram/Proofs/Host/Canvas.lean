import Mathlib.Data.List.Induction
import Pictogram.Host.Canvas
import Pictogram.Proofs.Host.Transforms

/-! # Calls on a canvas

Every drawing call becomes calls of the canvas context (`Call.onCanvas`).  All but strokes become the same
calls wherever they stand; a stroke is made with the line cap and join in force, and these are the latest
known ones among the strokes so far (`LineSettings.after`), so they may stem from an earlier shape.

`Canvas.host_eq` is the step: a call on the host makes its canvas calls, with the settings after it.  From it
follows what a run of calls does (`Canvas.perform_host`), and that drawing a picture makes the canvas calls
of its calls, one after the other (`replay_canvas`). -/

namespace Pictogram

namespace Call

/-- The line style of a stroke. -/
def line? : Call → Option LineStyle
  | stroke _ line => some line
  | _ => none

/-- What a call becomes on a canvas, with the line settings in force at it. -/
def onCanvas (settings : LineSettings) : Call → List CanvasCall
  | pushTransform t => [.save, .transform t]
  | popTransform => [.restore]
  | beginPath => [.beginPath]
  | moveTo p => [.moveTo p]
  | lineTo p => [.lineTo p]
  | cubicTo p q r => [.bezierCurveTo p q r]
  | closePath => [.closePath]
  | fill c => [.fill c.css]
  | stroke c line => [.stroke c.css line.width settings.cap settings.join]

end Call

/-! ### Settings -/

namespace LineSettings

/-- The last of the names that is a known one, or `initial` if none is. -/
def latest (known : List Text) (initial : Text) (names : List Text) : Text :=
  (names.filter known.contains).getLast?.getD initial

/-- The settings in force after calls: the latest known cap and the latest known join of their strokes. -/
def after (initial : LineSettings) (calls : List Call) : LineSettings :=
  ⟨latest caps initial.cap ((calls.filterMap Call.line?).map LineStyle.cap),
    latest joins initial.join ((calls.filterMap Call.line?).map LineStyle.join)⟩

theorem latest_append (known : List Text) (initial : Text) (names names' : List Text) :
    latest known initial (names ++ names') = latest known (latest known initial names) names' := by
  simp only [latest, List.filter_append, List.getLast?_append, Option.getD_or]

theorem latest_singleton (known : List Text) (initial name : Text) :
    latest known initial [name] = if name ∈ known then name else initial := by
  by_cases h : name ∈ known <;> simp [latest, h]

@[simp] theorem after_nil (initial : LineSettings) : initial.after [] = initial := rfl

theorem after_append (initial : LineSettings) (calls calls' : List Call) :
    initial.after (calls ++ calls') = (initial.after calls).after calls' := by
  simp only [after, List.filterMap_append, List.map_append, latest_append]

theorem after_stroke (initial : LineSettings) (c : Color) (line : LineStyle) :
    initial.after [.stroke c line] = initial.adopt line := by
  have hline : [Call.stroke c line].filterMap Call.line? = [line] := rfl
  simp only [after, adopt, hline, List.map_cons, List.map_nil, latest_singleton]

end LineSettings

/-! ### Calls in order -/

namespace Call

/-- What calls become on a canvas, each with the settings after it and all calls before it. -/
def allOnCanvas (initial : LineSettings) (calls : List Call) : List CanvasCall :=
  calls.zipIdx.flatMap fun (c, n) => c.onCanvas (initial.after (calls.take (n + 1)))

@[simp] theorem allOnCanvas_nil (initial : LineSettings) : allOnCanvas initial [] = [] := rfl

theorem allOnCanvas_concat (initial : LineSettings) (calls : List Call) (c : Call) :
    allOnCanvas initial (calls ++ [c]) =
      allOnCanvas initial calls ++ c.onCanvas (initial.after (calls ++ [c])) := by
  have hbefore (d : Call × Nat) (hd : d ∈ calls.zipIdx) :
      d.1.onCanvas (initial.after ((calls ++ [c]).take (d.2 + 1))) =
        d.1.onCanvas (initial.after (calls.take (d.2 + 1))) := by
    have hlt := (List.mem_zipIdx' hd).1
    rw [List.take_append_of_le_length (by omega)]
  have hlast : (calls ++ [c]).take (calls.length + 1) = calls ++ [c] := List.take_of_length_le (by simp)
  simp only [allOnCanvas, List.zipIdx_append, List.flatMap_append, List.zipIdx_singleton, List.flatMap_singleton,
    Nat.zero_add, hlast]
  rw [List.flatMap_congr hbefore]

end Call

namespace Canvas

variable {σ ε : Type} {context : Host CanvasCall σ ε}

/-- A call on the host makes its canvas calls, with the settings after it. -/
theorem host_eq (context : Host CanvasCall σ ε) (c : Call) (settings : LineSettings) (s : σ) :
    host context c (settings, s) =
      onContext context (c.onCanvas (settings.after [c])) (settings.after [c], s) := by
  cases c with
  | stroke color line =>
      rw [LineSettings.after_stroke]
      rfl
  | _ => rfl

theorem onContext_of_ok {calls : List CanvasCall} {s s' : σ} (h : context.perform calls s = .ok () s')
    (settings : LineSettings) : onContext context calls (settings, s) = .ok () (settings, s') := by
  simp only [onContext, h]

/-- Calls on the host make their canvas calls, if none of these fails. -/
theorem perform_host {calls : List Call} {initial : LineSettings} {s s' : σ}
    (h : context.perform (Call.allOnCanvas initial calls) s = .ok () s') :
    (host context).perform calls (initial, s) = .ok () (initial.after calls, s') := by
  induction calls using List.reverseRecOn generalizing s' with
  | nil =>
      cases h
      rfl
  | append_singleton calls c ih =>
      rw [Call.allOnCanvas_concat] at h
      obtain ⟨s₁, hcalls, hc⟩ := Host.perform_append_eq_ok h
      rw [Host.perform_append, Host.bind_of_ok (ih hcalls), LineSettings.after_append]
      rw [LineSettings.after_append] at hc
      unfold Host.perform
      rw [Host.bind_of_ok ((host_eq context c _ s₁).trans (onContext_of_ok hc _))]
      rfl

end Canvas

/-! ### Pictures -/

namespace Host

variable {κ σ ε : Type}

/-- A host on which every call succeeds. -/
def NeverFails (h : Host κ σ ε) : Prop := ∀ c s, ∃ s', h c s = .ok () s'

theorem NeverFails.perform {h : Host κ σ ε} (hh : h.NeverFails) (calls : List κ) (s : σ) :
    ∃ s', h.perform calls s = .ok () s' := by
  induction calls generalizing s with
  | nil => exact ⟨s, rfl⟩
  | cons c calls ih =>
      obtain ⟨s₁, hc⟩ := hh c s
      obtain ⟨s', hcalls⟩ := ih s₁
      refine ⟨s', ?_⟩
      unfold Host.perform
      rw [bind_of_ok hc, hcalls]

end Host

namespace Picture

/-- If no call fails, replaying is making the calls of the picture. -/
theorem replay_of_perform {σ ε : Type} {p : Picture} {h : Host Call σ ε} {s s' : σ}
    (hp : h.perform p.calls s = .ok () s') : p.replay h s = .ok () s' := by
  have huntraced : p.replay h s = Host.untraced (p.replay h.traced ([], s)) :=
    Shape.replayAll_eq_untraced p.shapes [] s
  rw [huntraced, replay_traced_of_ok hp]
  rfl

/-- **A canvas is driven call by call.**  Let `calls` be what a recorder sees of a picture.  On a recording
canvas context the picture makes the canvas calls of these, in order: a push saves and transforms, a pop
restores, path calls keep their points, a fill has the style of its colour, and a stroke has the style of its
colour, its width, and the latest cap and join known to canvases among the strokes up to this one, or else
those that the context had at first.  Any other context that never fails takes the same calls. -/
theorem replay_canvas (p : Picture) (initial : LineSettings) :
    ∃ calls : List Call,
      p.replay (Recorder.host Call.name []) #[] = .ok () calls.toArray ∧
      p.replay (Canvas.host (Recorder.host CanvasCall.name [])) (initial, #[]) =
        .ok () (initial.after calls, (Call.allOnCanvas initial calls).toArray) ∧
      ∀ (σ ε : Type) (context : Host CanvasCall σ ε), context.NeverFails → ∀ s, ∃ s',
        context.perform (Call.allOnCanvas initial calls) s = .ok () s' ∧
        p.replay (Canvas.host context) (initial, s) = .ok () (initial.after calls, s') := by
  refine ⟨p.calls, ?_, ?_, ?_⟩
  · apply replay_of_perform
    rw [Recorder.perform_host, Array.empty_append]
  · apply replay_of_perform
    apply Canvas.perform_host
    rw [Recorder.perform_host, Array.empty_append]
  · intro σ ε context hcontext s
    obtain ⟨s', hs'⟩ := hcontext.perform (Call.allOnCanvas initial p.calls) s
    exact ⟨s', hs', replay_of_perform (Canvas.perform_host hs')⟩

/-- Three strokes; the second, inside a transform, names a join only, and the third neither. -/
def strokedScene : Picture :=
  ⟨none, [⟨.identity, [.moveTo ⟨1, 2⟩], .solid ⟨0xFF0000FF⟩, .solid ⟨0⟩, ⟨3, lit "round", lit "arcs"⟩⟩,
    ⟨⟨2, 0, 0, 2, 5, 6⟩, [.lineTo ⟨3, 4⟩, .close], .none, .solid ⟨0⟩, ⟨1, [], lit "bevel"⟩⟩,
    ⟨.identity, [], .none, .solid ⟨0⟩, ⟨2, lit "Round", []⟩⟩]⟩

/-- A counter of calls never fails, and the three strokes have caps and joins of earlier ones. -/
theorem replay_canvas_strokedScene :
    let counter : Host CanvasCall Nat Empty := fun _ n => .ok () (n + 1)
    counter.NeverFails ∧
    strokedScene.replay (Canvas.host (Recorder.host CanvasCall.name [])) (.initial, #[]) =
      .ok () (⟨lit "round", lit "bevel"⟩,
        #[.beginPath, .moveTo ⟨1, 2⟩, .fill (lit "rgba(0, 0, 255, 1)"),
          .stroke (lit "rgba(0, 0, 0, 0)") 3 (lit "round") (lit "miter"),
          .save, .transform ⟨2, 0, 0, 2, 5, 6⟩, .beginPath, .lineTo ⟨3, 4⟩, .closePath,
          .stroke (lit "rgba(0, 0, 0, 0)") 1 (lit "round") (lit "bevel"), .restore, .beginPath,
          .stroke (lit "rgba(0, 0, 0, 0)") 2 (lit "round") (lit "bevel")]) ∧
    strokedScene.replay (Canvas.host counter) (.initial, 0) = .ok () (⟨lit "round", lit "bevel"⟩, 13) := by
  intro counter
  have hcounter : counter.NeverFails := fun _ n => ⟨n + 1, rfl⟩
  obtain ⟨calls, hcalls, hcanvas, hcontexts⟩ := replay_canvas strokedScene .initial
  have hplain : strokedScene.replay (Recorder.host Call.name []) #[] =
      .ok () #[.beginPath, .moveTo ⟨1, 2⟩, .fill ⟨0xFF0000FF⟩, .stroke ⟨0⟩ ⟨3, lit "round", lit "arcs"⟩,
        .pushTransform ⟨2, 0, 0, 2, 5, 6⟩, .beginPath, .lineTo ⟨3, 4⟩, .closePath,
        .stroke ⟨0⟩ ⟨1, [], lit "bevel"⟩, .popTransform, .beginPath, .stroke ⟨0⟩ ⟨2, lit "Round", []⟩] := by
    rfl
  rw [hplain] at hcalls
  cases hcalls
  refine ⟨hcounter, hcanvas.trans (congrArg (EStateM.Result.ok ()) (by decide +kernel)), ?_⟩
  obtain ⟨n, hn, hcount⟩ := hcontexts Nat Empty counter hcounter 0
  cases hn
  exact hcount.trans (congrArg (EStateM.Result.ok ()) (by decide +kernel))

end Picture
end Pictogram
