import Pictogram.Disk.Basic
import Pictogram.Disk.Wildcard

/-! # Expanding patterns to files

A path text without wildcards stands for the file it names, if there is one.  A pattern is divided
at its first name that holds a wildcard: the names before it give a folder, and the rest is matched
against the paths of files in that folder, relative to it and with backslashes read as slashes.
Folders within the folder are searched only when the pattern holds `**`.  The files come in the order
of their path texts. -/

namespace Pictogram
namespace Disk

/-- The names before the first wildcard, and the pattern from there on. -/
def divide (pattern : Text) : Text × Text :=
  let names := Path.names pattern
  (Path.join (names.takeWhile (! Wildcard.isIn ·)), Path.join (names.dropWhile (! Wildcard.isIn ·)))

/-- Whether a pattern reaches into folders. -/
def isRecursive (pattern : Text) : Bool := (Text.offsetOf? (lit "**") 0 pattern).isSome

/-- The files in a folder, or anywhere below it. -/
def filesIn (d : Disk) (folder : Path) (recursive : Bool) : List Path :=
  d.entries.filterMap fun (p, e) =>
    match e with
    | .folder => none
    | .file _ =>
      if folder.isPrefixOf p && (folder.length + 1 = p.length || recursive && folder.length < p.length) then some p
      else none

/-- The path text of a file relative to a folder, with backslashes read as slashes. -/
def relativeText (folder file : Path) : Text :=
  (file.text.drop (folder.text.length + 1)).map fun u => if u = unit '\\' then unit '/' else u

/-- The files that a path text or pattern stands for, seen from `base`. -/
def expand (d : Disk) (base pattern : Text) : Except DiskError (List Text) :=
  let here := d.working.follow base
  if Wildcard.isIn pattern then
    let (literal, wildcard) := divide pattern
    let folder := here.follow literal
    match d.get? folder with
    | none => .ok []
    | some (.file _) => .error ⟨.notFolder, "scandir", some folder.text⟩
    | some .folder =>
      let files := (d.filesIn folder (isRecursive wildcard)).filter fun p =>
        Wildcard.isMatch wildcard (relativeText folder p)
      .ok ((files.map Path.text).mergeSort fun a b => decide (a ≤ b))
  else
    let p := here.follow pattern
    match d.get? p with
    | some (.file _) => .ok [p.text]
    | _ => .ok []

end Disk
end Pictogram
