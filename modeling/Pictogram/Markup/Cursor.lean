import Pictogram.Fault
import Pictogram.Text.Blank

/-! # Cursors

A cursor is what is left of a text together with the place where that begins.  It only moves by
`advance`, which keeps the two in step. -/

namespace Pictogram

structure Cursor where
  rest : Text
  position : Position
deriving DecidableEq, Repr

namespace Cursor

def ofText (t : Text) : Cursor := ⟨t, .start⟩

/-- Moves past `n` units, or to the end of the text. -/
def advance (c : Cursor) (n : Nat) : Cursor := ⟨c.rest.drop n, c.position.after (c.rest.take n)⟩

/-- Moves to the end of the text. -/
def toEnd (c : Cursor) : Cursor := c.advance c.rest.length

/-- The longest stretch of units that satisfy `p`, and the cursor after it. -/
def takeWhile (c : Cursor) (p : CodeUnit → Bool) : Text × Cursor :=
  let t := c.rest.takeWhile p
  (t, c.advance t.length)

def skipBlanks (c : Cursor) : Cursor := (c.takeWhile CodeUnit.isBlank).2

/-- The units of element and attribute names. -/
def isNameUnit (u : CodeUnit) : Bool :=
  u.isAlphanumeric || u = unit ':' || u = unit '_' || u = unit '.' || u = unit '-'

/-- The name at the cursor, which may be empty, and the cursor after it. -/
def name (c : Cursor) : Text × Cursor := c.takeWhile isNameUnit

@[simp] theorem length_rest_advance (c : Cursor) (n : Nat) :
    (c.advance n).rest.length = c.rest.length - n := by simp [advance]

theorem length_rest_takeWhile (c : Cursor) (p : CodeUnit → Bool) :
    (c.takeWhile p).2.rest.length = c.rest.length - (c.takeWhile p).1.length := by simp [takeWhile]

theorem length_takeWhile_le (c : Cursor) (p : CodeUnit → Bool) :
    (c.takeWhile p).1.length ≤ c.rest.length := (List.takeWhile_sublist p).length_le

theorem length_rest_skipBlanks_le (c : Cursor) : c.skipBlanks.rest.length ≤ c.rest.length := by
  simp [skipBlanks, takeWhile]

/-- A name that is not empty moves the cursor on. -/
theorem length_rest_name_lt {c : Cursor} (h : c.name.1 ≠ []) : c.name.2.rest.length < c.rest.length := by
  have := List.length_pos_iff.mpr h
  have := c.length_takeWhile_le isNameUnit
  have := c.length_rest_takeWhile isNameUnit
  simp only [name] at *
  omega

/-- The text up to the first `stop`, and the cursor after that. -/
def past? (c : Cursor) (stop : Text) : Option (Text × Cursor) :=
  (Text.offsetOf? stop 0 c.rest).map fun n => (c.rest.take n, c.advance (n + stop.length))

/-- Moving past a terminator that is not empty moves the cursor on. -/
theorem length_rest_past?_lt {c c' : Cursor} {stop t : Text} (hs : stop ≠ [])
    (h : c.past? stop = some (t, c')) : c'.rest.length < c.rest.length := by
  obtain ⟨n, hn, e⟩ := Option.map_eq_some_iff.mp h
  obtain ⟨-, rfl⟩ := Prod.mk.inj e
  have := List.length_pos_iff.mpr hs
  have := List.length_pos_iff.mpr (Text.ne_nil_of_offsetOf? hn)
  simp only [length_rest_advance]
  omega

end Cursor
end Pictogram
