import Pictogram.Text.Basic

/-! # Quoted text

Double-quoted text as JSON writes it: the quote, the backslash and the five short control escapes
take a backslash, other controls and lone surrogates are written `\u` and four lower-case digits,
and everything else, surrogate pairs included, stands for itself. -/

namespace Pictogram
namespace Text

/-- The letter of a short escape. -/
def shortEscape? (u : CodeUnit) : Option CodeUnit :=
  if u = unit '"' then some (unit '"')
  else if u = unit '\\' then some (unit '\\')
  else if u = 0x08 then some (unit 'b')
  else if u = 0x0C then some (unit 'f')
  else if u = 0x0A then some (unit 'n')
  else if u = 0x0D then some (unit 'r')
  else if u = 0x09 then some (unit 't')
  else none

def hexEscape (u : CodeUnit) : Text := unit '\\' :: unit 'u' :: hex 4 u.toNat

/-- A unit that is not half of a surrogate pair, escaped where it must be. -/
def escapeUnit (u : CodeUnit) : Text :=
  match shortEscape? u with
  | some e => [unit '\\', e]
  | none => if u < 0x20 ∨ u.isHighSurrogate ∨ u.isLowSurrogate then hexEscape u else [u]

def escape : Text → Text
  | [] => []
  | [u] => escapeUnit u
  | u :: v :: t =>
    if u.isHighSurrogate && v.isLowSurrogate then u :: v :: escape t
    else escapeUnit u ++ escape (v :: t)

/-- The text between double quotes. -/
def quoted (t : Text) : Text := unit '"' :: escape t ++ [unit '"']

end Text
end Pictogram
