import Pictogram.Markup.Reader
import Pictogram.Picture.Basic
import Pictogram.Text.Utf8

/-! # Compiling documents

The root element must be an `svg` element of the SVG namespace.  Its view box is read first, then
its content in document order: texts are ignored, a `g` stands for its content, a `title` is passed
over, a shape element gives its shape if that is painted, and any other element is a fault.  What a
shape element contains is passed over, and elements below the root are known by their tag alone.

A fault in the attributes or path data of an element is found without a place and gets that of the
element, in whose scope they are read (`inElement`).  The first fault is the outcome; reading stops at the end of the root element, so nothing after it matters. -/

namespace Pictogram
namespace Picture

def svgNamespace : Text := lit "http://www.w3.org/2000/svg"

variable {α : Type}

/-- The outcome of reading without the reader that an error leaves behind. -/
def ofOutcome : Outcome Reader α → Except CompileError (α × Reader)
  | .ok a r => .ok (a, r)
  | .error e _ => .error e

/-- What is done in the scope of an element: an error that has no place yet gets that of the element. -/
def inScope (place : Position) (x : Except CompileError α) : Except CompileError α :=
  x.mapError (·.placedAt place)

/-- A value of an element, read in its scope. -/
def inElement (place : Position) (x : Except Fault α) : Except CompileError α :=
  inScope place (x.mapError Fault.unplaced)

@[simp] theorem inElement_ok (place : Position) (a : α) : inElement place (.ok a) = .ok a := rfl

@[simp] theorem inElement_error (place : Position) (f : Fault) :
    inElement place (.error f : Except Fault α) = .error (f.placed place) := rfl

/-- Reads the attributes of a shape element, passes over its content, and draws it. -/
def readShape (kind : FigureKind) (attributes : Table) (place : Position) (r : Reader) :
    Except CompileError (Option Shape × Reader) := do
  let style ← inElement place (Style.read attributes)
  let figure ← inElement place (Figure.read kind attributes)
  let (_, r) ← ofOutcome r.skip
  let shape ← inElement place (Shape.ofFigure? figure style)
  return (shape, r)

theorem budget_lt_of_skip {r r' : Reader} {u : Unit} (h : ofOutcome r.skip = .ok (u, r')) :
    r'.budget < r.budget := by
  unfold ofOutcome at h
  split at h
  · next hs =>
    cases h
    exact Reader.budget_lt_of_skipTo hs
  · cases h

theorem budget_lt_of_readShape {kind : FigureKind} {attributes : Table} {place : Position} {r r' : Reader}
    {shape : Option Shape} (h : readShape kind attributes place r = .ok (shape, r')) : r'.budget < r.budget := by
  simp only [readShape, bind, Except.bind] at h
  repeat' split at h
  all_goals cases h
  next hs _ _ => exact budget_lt_of_skip hs

/-! ### Content -/

/-- A walk through the content of the root: the groups around the current place, the shapes found so
far, and the reader. -/
structure Walk where
  depth : Nat
  found : Array Shape
  reader : Reader

namespace Walk

/-- Goes on after a token; `none` if the token ends the root. -/
def take (w : Walk) : Token → Except CompileError (Option Walk)
  | .text .. => .ok (some w)
  | .closing .. =>
    match w.depth with
    | 0 => .ok none
    | depth + 1 => .ok (some { w with depth })
  | .opening name attributes place =>
    if name.tag = lit "g" then .ok (some { w with depth := w.depth + 1 })
    else if name.tag = lit "title" then do
      let (_, reader) ← ofOutcome w.reader.skip
      return some { w with reader }
    else match FigureKind.ofName? name.tag with
      | none => .error ((Fault.unsupportedElement name.tag).placed place)
      | some kind => do
        let (shape, reader) ← readShape kind attributes place w.reader
        return some { w with found := w.found ++ shape.toArray, reader }

theorem budget_le_of_take {w w' : Walk} {t : Token} (h : w.take t = .ok (some w')) :
    w'.reader.budget ≤ w.reader.budget := by
  unfold take at h
  split at h
  · cases h
    exact Nat.le_refl _
  · split at h <;> cases h
    exact Nat.le_refl _
  · split at h
    · cases h
      exact Nat.le_refl _
    · split at h
      · simp only [bind, Except.bind] at h
        split at h <;> cases h
        next hs => exact Nat.le_of_lt (budget_lt_of_skip hs)
      · split at h
        · cases h
        · simp only [bind, Except.bind] at h
          split at h <;> cases h
          next hs => exact Nat.le_of_lt (budget_lt_of_readShape hs)

/-- Walks to the end of the root. -/
def run (w : Walk) : Except CompileError (List Shape × Reader) :=
  match h : w.reader.next with
  | .error e _ => .error e
  | .ok none s => .error s.unexpectedEnd
  | .ok (some t) s =>
    match hw : Walk.take { w with reader := s } t with
    | .error e => .error e
    | .ok none => .ok (w.found.toList, s)
    | .ok (some w') =>
      have : w'.reader.budget < w.reader.budget :=
        Nat.lt_of_le_of_lt (budget_le_of_take hw) (Reader.budget_lt_of_next h)
      w'.run
termination_by w.reader.budget

end Walk

/-! ### Documents -/

/-- Reads up to the first opening tag. -/
def findRoot (r : Reader) : Except CompileError ((ElementName × Table × Position) × Reader) :=
  match h : r.next with
  | .error e _ => .error e
  | .ok none s => .error s.unexpectedEnd
  | .ok (some t) s =>
    have := Reader.budget_lt_of_next h
    match t.opening? with
    | some root => .ok (root, s)
    | none => findRoot s
termination_by r.budget

/-- Reads a document, and the reader at the end of its root element. -/
def read (r : Reader) : Except CompileError (Picture × Reader) := do
  let ((name, attributes, place), r) ← findRoot r
  if name.tag ≠ lit "svg" then throw ((Fault.invalidRoot name.tag).placed place)
  if name.space ≠ svgNamespace then throw ((Fault.unsupportedNamespace name.space).placed place)
  let viewBox ← inElement place (ViewBox.readOptional (attributes.get? (lit "viewBox")))
  let (shapes, r) ← Walk.run ⟨0, #[], r⟩
  return ({ viewBox, shapes }, r)

/-- The picture of a document. -/
def compile (document : Text) : Except CompileError Picture := (read (.ofText document)).map Prod.fst

/-- The picture of a document in UTF-8. -/
def compileBytes (document : Bytes) : Except CompileError Picture := compile (.decodeUtf8 document)

end Picture
end Pictogram
