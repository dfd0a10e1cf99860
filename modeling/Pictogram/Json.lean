import Pictogram.Decimal.Layout
import Pictogram.Text.Quoted

/-! # JSON text

JSON values and their text, each item of an array or object on a line of its own, indented by two
spaces a level.  Numbers have their shortest decimal text; a number that is not finite is `null`. -/

namespace Pictogram

inductive Json where
  | null
  | number (x : Float)
  | natural (n : Nat)
  | text (t : Text)
  | array (items : List Json)
  | object (fields : List (Text × Json))

namespace Json

def numberText (x : Float) : Text := if x.isNaN || x.isInf then lit "null" else Decimal.ofFloat x

/-- The start of a line at the given level. -/
def newLine (level : Nat) : Text := unit '\n' :: List.replicate (2 * level) (unit ' ')

/-- Lines in brackets, which stand at the given level; nothing stands between brackets without lines. -/
def bracket (level : Nat) (opening closing : Char) (lines : List Text) : Text :=
  if lines = [] then [unit opening, unit closing]
  else unit opening :: newLine (level + 1) ++ (unit ',' :: newLine (level + 1)).intercalate lines ++
    newLine level ++ [unit closing]

mutual

/-- The text of a value that begins on a line of the given level. -/
def render (level : Nat) : Json → Text
  | null => lit "null"
  | number x => numberText x
  | natural n => Text.ofNat n
  | text t => t.quoted
  | array items => bracket level '[' ']' (renderItems (level + 1) items)
  | object fields => bracket level '\x7b' '\x7d' (renderFields (level + 1) fields)

def renderItems (level : Nat) : List Json → List Text
  | [] => []
  | v :: vs => render level v :: renderItems level vs

def renderFields (level : Nat) : List (Text × Json) → List Text
  | [] => []
  | (key, v) :: vs => (key.quoted ++ lit ": " ++ render level v) :: renderFields level vs

end

end Json
end Pictogram
