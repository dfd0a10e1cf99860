import Pictogram.Text.Basic

/-! # Blanks

The units that count as white space in markup and at the ends of an attribute value: the ASCII
blanks, the no-break space, the Unicode space separators, the line and paragraph separators and the
byte order mark.  U+0085, U+180E and U+200B are not blanks. -/

namespace Pictogram

/-- Inclusive ranges of the blank units. -/
def blankRanges : List (CodeUnit × CodeUnit) :=
  [(0x0009, 0x000D), (0x0020, 0x0020), (0x00A0, 0x00A0), (0x1680, 0x1680), (0x2000, 0x200A),
    (0x2028, 0x2029), (0x202F, 0x202F), (0x205F, 0x205F), (0x3000, 0x3000), (0xFEFF, 0xFEFF)]

def CodeUnit.isBlank (u : CodeUnit) : Bool := blankRanges.any fun (lo, hi) => lo ≤ u && u ≤ hi

namespace Text

def trimStart (t : Text) : Text := t.dropWhile CodeUnit.isBlank

def trimEnd (t : Text) : Text := (t.reverse.dropWhile CodeUnit.isBlank).reverse

/-- The text without the blanks at its two ends. -/
def trim (t : Text) : Text := trimEnd (trimStart t)

end Text

end Pictogram
