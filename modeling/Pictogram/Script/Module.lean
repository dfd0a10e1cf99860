import Pictogram.Script.Statement

/-! # Image modules

Pictures are written as a TypeScript module that exports one image constant each.  An image has a
view box and a function that draws it on a host.  The names of the images must be identifiers and
differ from each other; the first image that breaks this is reported.  `ImageName.ofFile` makes an
identifier of any file name. -/

namespace Pictogram

structure Image where
  name : Text
  picture : Picture
deriving DecidableEq, Repr

inductive ImageNameError where
  | invalid (name : Text)
  | duplicate (name : Text)
deriving DecidableEq, Repr

def ImageNameError.message : ImageNameError → Text
  | invalid name => lit "invalid image name: " ++ name
  | duplicate name => lit "duplicate image name: " ++ name

namespace ImageName

def isLetter (u : CodeUnit) : Bool :=
  (unit 'A' ≤ u && u ≤ unit 'Z') || (unit 'a' ≤ u && u ≤ unit 'z') || u = unit '_' || u = unit '$'

def isPart (u : CodeUnit) : Bool := isLetter u || (unit '0' ≤ u && u ≤ unit '9')

def isValid : Text → Bool
  | [] => false
  | u :: t => isLetter u && t.all isPart

/-- The part of a path after its last slash or backslash. -/
def lastComponent (file : Text) : Text :=
  ((Text.splitOn (fun u => u = unit '/' || u = unit '\\') file).getLast?).getD file

/-- A file name up to its last dot; a dot in front does not count. -/
def stem (base : Text) : Text :=
  let extension := base.reverse.takeWhile (· ≠ unit '.')
  let dot := base.length - extension.length - 1
  if extension.length < base.length ∧ 0 < dot then base.take dot else base

/-- The image name of a file. -/
def ofFile (file : Text) : Text :=
  lit "Image_" ++ (stem (lastComponent file)).map fun u => if isPart u then u else unit '_'

end ImageName

namespace Script

def viewBox : Option ViewBox → Text
  | none => lit "null"
  | some box => record [("min", point box.min), ("max", point box.max)]

/-- The lines of an image constant. -/
def imageLines (image : Image) : List Text :=
  [lit "export const " ++ image.name ++ lit ": CompiledImage = \x7b",
    indent 1 (lit "viewBox: " ++ viewBox image.picture.viewBox ++ lit ","),
    indent 1 (lit "draw(host: DrawHost): void \x7b")] ++
    (image.picture.shapes.flatMap fun s => s.statements.flatMap Statement.lines).map (indent 2) ++
    [indent 1 (lit "\x7d,"), lit "\x7d"]

/-- The module that host types come from unless another is given. -/
def defaultHostModule : Text := lit "@svgop/core"

def headerLines (hostModule : Text) : List Text :=
  [lit "// Code generated by svgop; DO NOT EDIT.", [],
    lit "import type \x7b CompiledImage, DrawHost \x7d from " ++ hostModule.quoted]

/-- The first fault among image names, given the names before them. -/
def nameError? (seen : List Text) : List Text → Option ImageNameError
  | [] => none
  | name :: names =>
    if ImageName.isValid name = false then some (.invalid name)
    else if name ∈ seen then some (.duplicate name)
    else nameError? (name :: seen) names

def ofLines (lines : List Text) : Text := lines.flatMap (· ++ [unit '\n'])

/-- The module of a list of images. -/
def write (hostModule : Option Text) (images : List Image) : Except ImageNameError Text :=
  match nameError? [] (images.map Image.name) with
  | some e => .error e
  | none =>
    .ok (ofLines (headerLines (hostModule.getD defaultHostModule) ++ images.flatMap fun i => [] :: imageLines i))

end Script
end Pictogram
