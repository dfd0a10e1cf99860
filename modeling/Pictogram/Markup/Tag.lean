import Pictogram.Markup.Cursor
import Pictogram.Markup.Reference
import Pictogram.Markup.Token

/-! # Tags

Tags are read from a cursor.  Whether reading succeeds or fails, the outcome holds the cursor where
it stopped.  `ended` is the fault of a text that ends too soon.

An opening tag is a name and attributes, each a name, an equals sign and a quoted value, and ends in
`>` or `/>`.  A fault in an attribute is placed at the attribute, a missing name at the tag. -/

namespace Pictogram

/-- The outcome of reading from a `σ`, with the state in which it was left. -/
abbrev Outcome (σ α : Type) := EStateM.Result CompileError σ α

/-- An opening tag as written. -/
structure OpeningTag where
  written : Text
  attributes : Table
  selfClosing : Bool
deriving DecidableEq, Repr

namespace Tag

def isQuote (u : CodeUnit) : Bool := u = unit '"' || u = unit '\''

/-- The value of an attribute, from its opening quote on. -/
def readValue (ended : Fault) (key : Text) (place : Position) (c : Cursor) : Outcome Cursor Text :=
  match c.rest with
  | [] => .error ((Fault.unquotedValue key).placed place) c
  | quote :: _ =>
    if isQuote quote then
      let (raw, c) := (c.advance 1).takeWhile (· ≠ quote)
      if c.rest = [] then .error (ended.placed c.position) c
      else match Reference.decode raw with
        | .error f => .error (f.placed place) c
        | .ok value => .ok value (c.advance 1)
    else .error ((Fault.unquotedValue key).placed place) c

/-- One attribute, at the unit `u` of the cursor. -/
def readAttribute (ended : Fault) (element : Text) (u : CodeUnit) (c : Cursor) : Outcome Cursor (Text × Text) :=
  let key := c.name.1
  if key = [] then .error ((Fault.strayUnit u element).placed c.position) c
  else
    let d := c.name.2.skipBlanks
    if d.rest.head? = some (unit '=') then
      match readValue ended key c.position (d.advance 1).skipBlanks with
      | .error e s => .error e s
      | .ok value s => .ok (key, value) s
    else .error ((Fault.missingValue key).placed c.position) d

theorem length_rest_readValue_le {ended : Fault} {key : Text} {place : Position} {c c' : Cursor} {v : Text}
    (h : readValue ended key place c = .ok v c') : c'.rest.length ≤ c.rest.length := by
  unfold readValue at h
  split at h
  · cases h
  · split at h
    · dsimp only at h
      split at h
      · cases h
      · split at h
        · cases h
        · cases h
          simp [Cursor.takeWhile]
          omega
    · cases h

theorem length_rest_readAttribute_lt {ended : Fault} {element : Text} {u : CodeUnit} {c c' : Cursor}
    {entry : Text × Text} (h : readAttribute ended element u c = .ok entry c') :
    c'.rest.length < c.rest.length := by
  unfold readAttribute at h
  dsimp only at h
  split at h
  · cases h
  · next hk =>
    split at h
    · split at h
      · cases h
      · next hv =>
        cases h
        have := length_rest_readValue_le hv
        have := Cursor.length_rest_name_lt hk
        have := c.name.2.length_rest_skipBlanks_le
        have := (c.name.2.skipBlanks.advance 1).length_rest_skipBlanks_le
        simp only [Cursor.length_rest_advance] at *
        omega
    · cases h

/-- The attributes of a tag up to its closing bracket or slash, added to `found`. -/
def readAttributes (ended : Fault) (element : Text) (found : Table) (c : Cursor) : Outcome Cursor Table :=
  match c.skipBlanks.rest with
  | [] => .error (ended.placed c.skipBlanks.position) c.skipBlanks
  | u :: _ =>
    if u = unit '>' ∨ u = unit '/' then .ok found c.skipBlanks
    else match h : readAttribute ended element u c.skipBlanks with
      | .error e s => .error e s
      | .ok (key, value) s =>
        have : s.rest.length < c.rest.length :=
          Nat.lt_of_lt_of_le (length_rest_readAttribute_lt h) c.length_rest_skipBlanks_le
        readAttributes ended element (found.insert key value) s
termination_by c.rest.length

/-- The end of an opening tag: whether the element ends with it. -/
def readBracket (element : Text) (c : Cursor) : Outcome Cursor Bool :=
  if c.rest.head? = some (unit '/') then
    if (c.rest.drop 1).head? = some (unit '>') then .ok true (c.advance 2)
    else .error ((Fault.straySlash element).placed c.position) c
  else .ok false (c.advance 1)

/-- An opening tag, at its `<`. -/
def readOpening (ended : Fault) (c : Cursor) : Outcome Cursor OpeningTag :=
  let (written, s) := (c.advance 1).name
  if written = [] then .error (Fault.missingElementName.placed c.position) s
  else match readAttributes ended written .empty s with
    | .error e s => .error e s
    | .ok attributes s =>
      match readBracket written s with
      | .error e s => .error e s
      | .ok selfClosing s => .ok { written, attributes, selfClosing } s

/-- A closing tag, at its `</`: the name in it. -/
def readClosing (ended : Fault) (c : Cursor) : Outcome Cursor Text :=
  let (written, s) := (c.advance 2).name
  match s.skipBlanks.rest with
  | [] => .error (ended.placed s.skipBlanks.position) s.skipBlanks
  | u :: _ =>
    if u = unit '>' then .ok written (s.skipBlanks.advance 1)
    else .error ((Fault.malformedEndTag written).placed c.position) s.skipBlanks

theorem length_rest_readAttributes_le {ended : Fault} {element : Text} {found attributes : Table} {c c' : Cursor}
    (h : readAttributes ended element found c = .ok attributes c') : c'.rest.length ≤ c.rest.length := by
  fun_induction readAttributes ended element found c with
  | case1 => cases h
  | case2 =>
    cases h
    exact Cursor.length_rest_skipBlanks_le _
  | case3 => cases h
  | case4 found c u t _ _ key value s _ hlt ih => exact Nat.le_of_lt (Nat.lt_of_le_of_lt (ih h) hlt)

theorem length_rest_readBracket_le {element : Text} {c c' : Cursor} {b : Bool}
    (h : readBracket element c = .ok b c') : c'.rest.length ≤ c.rest.length := by
  unfold readBracket at h
  split at h
  · split at h <;> cases h
    simp
  · cases h
    simp

theorem length_rest_readOpening_lt {ended : Fault} {c c' : Cursor} {tag : OpeningTag} (hc : c.rest ≠ [])
    (h : readOpening ended c = .ok tag c') : c'.rest.length < c.rest.length := by
  simp only [readOpening] at h
  split at h
  · cases h
  · split at h
    · cases h
    · next ha =>
      split at h
      · cases h
      · next hb =>
        cases h
        have := length_rest_readAttributes_le ha
        have := length_rest_readBracket_le hb
        have := (c.advance 1).length_rest_takeWhile Cursor.isNameUnit
        have := List.length_pos_iff.mpr hc
        simp only [Cursor.name, Cursor.length_rest_advance] at *
        omega

theorem length_rest_readClosing_lt {ended : Fault} {c c' : Cursor} {written : Text} (hc : c.rest ≠ [])
    (h : readClosing ended c = .ok written c') : c'.rest.length < c.rest.length := by
  simp only [readClosing] at h
  split at h
  · cases h
  · split at h <;> cases h
    have := (c.advance 2).name.2.length_rest_skipBlanks_le
    have := (c.advance 2).length_rest_takeWhile Cursor.isNameUnit
    have := List.length_pos_iff.mpr hc
    simp only [Cursor.name, Cursor.length_rest_advance] at *
    omega

end Tag
end Pictogram
