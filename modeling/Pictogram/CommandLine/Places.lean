import Pictogram.CommandLine.Run

/-! # What a run looks at

The places of a disk that a command line can make a difference by: the files and folders that its
inputs name, and the way to its output.  A disk that agrees at these places serves as well as the
whole. -/

namespace Pictogram
namespace CommandLine

/-- How much of a place is looked at: what it is, the files right in it, or all below it. -/
inductive Reach where
  | entry
  | files
  | tree
deriving DecidableEq, Repr

/-- The place that an input names, seen from the working folder. -/
def inputPlace (working : Path) (input : Text) : Path × Reach :=
  if Wildcard.isIn input then
    let (literal, wildcard) := Disk.divide input
    (working.follow literal, if Disk.isRecursive wildcard then .tree else .files)
  else (working.follow input, .entry)

/-- The places that a command line looks at. -/
def places (working : Path) (arguments : List Text) : List (Path × Reach) :=
  match Arguments.read arguments with
  | .error _ => []
  | .ok ⟨inputs, o⟩ => (working.follow (o.out.getD defaultOutput), .entry) :: inputs.map (inputPlace working)

end CommandLine
end Pictogram
