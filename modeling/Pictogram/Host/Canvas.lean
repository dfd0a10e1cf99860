import Pictogram.Host.Basic

/-! # Drawing on a canvas

A canvas context is driven by calls of its own: a transform is saved before it is applied and
restored after, and colours are given as style texts.  The line cap and join are settings of the
context: a stroke that names a cap or join known to canvases changes the setting, any other name
leaves it as it is. -/

namespace Pictogram

inductive CanvasCall where
  | save
  | restore
  | transform (t : Affine)
  | beginPath
  | moveTo (target : Point)
  | lineTo (target : Point)
  | bezierCurveTo (control₁ control₂ target : Point)
  | closePath
  | fill (style : Text)
  | stroke (style : Text) (width : Float) (cap join : Text)
deriving DecidableEq, Repr

def CanvasCall.name : CanvasCall → Text
  | save => lit "save"
  | restore => lit "restore"
  | transform _ => lit "transform"
  | beginPath => lit "beginPath"
  | moveTo _ => lit "moveTo"
  | lineTo _ => lit "lineTo"
  | bezierCurveTo .. => lit "bezierCurveTo"
  | closePath => lit "closePath"
  | fill _ => lit "fill"
  | stroke .. => lit "stroke"

/-- The line cap and join in force. -/
structure LineSettings where
  cap : Text
  join : Text
deriving DecidableEq, Repr

namespace LineSettings

/-- The settings of a new context. -/
def initial : LineSettings := ⟨lit "butt", lit "miter"⟩

def caps : List Text := [lit "butt", lit "round", lit "square"]

def joins : List Text := [lit "bevel", lit "miter", lit "round"]

/-- The settings for a stroke in the given style. -/
def adopt (s : LineSettings) (line : LineStyle) : LineSettings :=
  ⟨if line.cap ∈ caps then line.cap else s.cap, if line.join ∈ joins then line.join else s.join⟩

end LineSettings

namespace Canvas

variable {σ ε : Type}

/-- Makes calls on the context; the settings stay. -/
def onContext (context : Host CanvasCall σ ε) (calls : List CanvasCall) :
    EStateM ε (LineSettings × σ) Unit := fun (settings, s) =>
  match context.perform calls s with
  | .ok _ s => .ok () (settings, s)
  | .error e s => .error e (settings, s)

/-- A canvas context as a drawing host. -/
def host (context : Host CanvasCall σ ε) : Host Call (LineSettings × σ) ε
  | .pushTransform t => onContext context [.save, .transform t]
  | .popTransform => onContext context [.restore]
  | .beginPath => onContext context [.beginPath]
  | .moveTo p => onContext context [.moveTo p]
  | .lineTo p => onContext context [.lineTo p]
  | .cubicTo p q r => onContext context [.bezierCurveTo p q r]
  | .closePath => onContext context [.closePath]
  | .fill c => onContext context [.fill c.css]
  | .stroke c line => fun (settings, s) =>
    let settings := settings.adopt line
    onContext context [.stroke c.css line.width settings.cap settings.join] (settings, s)

end Canvas
end Pictogram
