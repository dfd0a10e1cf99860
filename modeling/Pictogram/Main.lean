import Pictogram.CommandLine.Places

/-! # The command on a real disk

Loads the places that the command line looks at, runs the command on them, and carries its effect
out. -/

namespace Pictogram
namespace Main

def native (p : Path) : String := p.text.toString

/-- The path of an absolute native name. -/
def pathOf (name : String) : Path := Path.follow [] (.ofString name)

/-- Adds what is at a path, as far as it is looked at; of a path that is missing, the folders on the way that are
there. -/
partial def load (d : Disk) (p : Path) (reach : CommandLine.Reach) : IO Disk := do
  let place := (← IO.currentDir) / native p
  if ← place.isDir then
    let d := d.addFolder p
    if reach = .entry then return d
    (← place.readDir).foldlM (fun d entry => do
      let inner := p ++ [Text.ofString entry.fileName]
      match (← entry.path.metadata).type, reach with
      | .dir, .tree => load d inner .tree
      | .file, _ => load d inner .entry
      | _, _ => return d) d
  else if ← place.pathExists then
    return d.addFile p (← IO.FS.readBinFile place).toList
  else
    if p = [] then return d else load d p.dropLast .entry

/-- Brings the folders and changed files of one disk onto the real one. -/
def save (before after : Disk) : IO Unit := do
  for (p, e) in after.entries do
    if before.get? p ≠ some e then
      match e with
      | .folder => IO.FS.createDirAll (native p)
      | .file content => IO.FS.writeBinFile (native p) (ByteArray.mk content.toArray)

def run (arguments : List String) : IO UInt32 := do
  let arguments := arguments.map Text.ofString
  let working := pathOf (← IO.currentDir).toString
  let places := CommandLine.places working arguments
  let d ← places.foldlM (fun d (p, reach) => load d p reach) (Disk.ofFolder working)
  let effect := CommandLine.run d arguments
  IO.print effect.out.toString
  IO.eprint effect.err.toString
  save d effect.disk
  return UInt32.ofNat effect.exit

end Main
end Pictogram

def main (arguments : List String) : IO UInt32 := Pictogram.Main.run arguments
