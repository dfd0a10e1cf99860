import Pictogram.Text.Basic

/-! # Wildcard patterns

A pattern is a sequence of pieces.  `?` stands for one unit other than a slash, `*` for any run of
such units, `**` for any run of units without a line terminator, and `**/` for nothing or such a run
that ends in a slash; every other unit stands for itself.  Pieces are found in passes over the whole
pattern, each from left to right: first `**/`, then `**`, `*` and `?`, and last the two words that
spell out `**/` and `**`.

`Wildcard.isMatch` follows, piece by piece, what can be left of a text. -/

namespace Pictogram
namespace Wildcard

inductive Piece where
  | folders
  | anything
  | name
  | one
  | exactly (u : CodeUnit)
deriving DecidableEq, Repr

/-- The spellings of the wildcard pieces, in the order of the passes. -/
def spellings : List (Text × Piece) :=
  [(lit "**/", .folders), (lit "**", .anything), (lit "*", .name), (lit "?", .one),
    (lit "<<<GLOBSTAR_DIR>>>", .folders), (lit "<<<GLOBSTAR>>>", .anything)]

/-- Puts a piece for each occurrence of its spelling, past `skip` units of one already found. -/
def pass (spelling : Text) (piece : Piece) : (skip : Nat) → List Piece → List Piece
  | _, [] => []
  | skip + 1, _ :: ps => pass spelling piece skip ps
  | 0, p :: ps =>
    if (spelling.map .exactly).isPrefixOf (p :: ps) then piece :: pass spelling piece (spelling.length - 1) ps
    else p :: pass spelling piece 0 ps

/-- The pieces of a pattern. -/
def pieces (pattern : Text) : List Piece :=
  spellings.foldl (fun ps (spelling, piece) => pass spelling piece 0 ps) (pattern.map .exactly)

def isLineTerminator (u : CodeUnit) : Bool := u = 0x000A || u = 0x000D || u = 0x2028 || u = 0x2029

/-- What can be left of a text after a run of units that satisfy `p`. -/
def restsAfterRun (p : CodeUnit → Bool) : Text → List Text
  | [] => [[]]
  | u :: t => (u :: t) :: if p u then restsAfterRun p t else []

/-- What can be left of a text after a run without line terminators that ends in a slash. -/
def restsAfterSlash : Text → List Text
  | [] => []
  | u :: t =>
    if isLineTerminator u then []
    else if u = unit '/' then t :: restsAfterSlash t
    else restsAfterSlash t

/-- What can be left of a text after a piece. -/
def Piece.rests : Piece → Text → List Text
  | folders, t => t :: restsAfterSlash t
  | anything, t => restsAfterRun (! isLineTerminator ·) t
  | name, t => restsAfterRun (· ≠ unit '/') t
  | one, [] => []
  | one, u :: t => if u = unit '/' then [] else [t]
  | exactly _, [] => []
  | exactly v, u :: t => if u = v then [t] else []

/-- What can be left of a text after pieces in order, each rest listed once. -/
def restsAfter (ps : List Piece) (t : Text) : List Text :=
  ps.foldl (fun ts p => (ts.flatMap p.rests).eraseDups) [t]

/-- Whether a pattern matches a text from end to end. -/
def isMatch (pattern t : Text) : Bool := (restsAfter (pieces pattern) t).contains []

/-- Whether a text holds a wildcard at all. -/
def isIn (t : Text) : Bool := t.contains (unit '*') || t.contains (unit '?')

end Wildcard
end Pictogram
