import Pictogram.Text.Basic

/-! # Paths

A path is the list of folder and file names from the root.  A path text is followed from a folder:
a slash in front goes back to the root, empty names and `.` stay, and `..` goes up, though never
above the root.  `Path.follow` does this by the text alone. -/

namespace Pictogram

abbrev Path := List Text

namespace Path

def isSlash (u : CodeUnit) : Bool := u = unit '/'

/-- The names in a path text, empty ones included. -/
def names (t : Text) : List Text := Text.splitOn isSlash t

/-- Names with slashes between them. -/
def join (names : List Text) : Text := (lit "/").intercalate names

/-- The absolute text of a path. -/
def text (p : Path) : Text := unit '/' :: join p

/-- A path and the folders around it, the root apart, outermost first. -/
def trail (p : Path) : List Path := (List.range p.length).map fun n => p.take (n + 1)

def isAbsolute (t : Text) : Bool := t.head? = some (unit '/')

/-- Goes on by one name. -/
def step (p : Path) (name : Text) : Path :=
  if name = [] ∨ name = lit "." then p else if name = lit ".." then p.dropLast else p ++ [name]

/-- The folder at which a path text starts. -/
def startOf (p : Path) (t : Text) : Path := if isAbsolute t then [] else p

/-- The path that a text names, seen from `p`. -/
def follow (p : Path) (t : Text) : Path := (names t).foldl step (p.startOf t)

/-- The last name of a path text, slashes at its end ignored. -/
def baseName (t : Text) : Text :=
  ((t.reverse.dropWhile isSlash).takeWhile (! isSlash ·)).reverse

/-- What stands before the last name of a path text: `.` if that is nothing, and one slash less
than the text has there, unless the slashes stand in front. -/
def parentText (t : Text) : Text :=
  let trimmed := (t.reverse.dropWhile isSlash).dropWhile (! isSlash ·)
  match trimmed.drop 1 with
  | [] => if isAbsolute t then lit "/" else lit "."
  | before => if before = lit "/" then lit "//" else before.reverse

end Path
end Pictogram
