import Pictogram.Disk.Path
import Pictogram.Text.Utf8

/-! # Disks

A disk is a tree of folders and files, given as a list of places, with a working folder.  There are
no links.  A path text names a place by a walk through the folders: every name but the last must be
that of a folder, also those that a later `..` leaves again.

Failures carry the operation and the path text for their message. -/

namespace Pictogram

inductive Entry where
  | folder
  | file (content : Bytes)
deriving DecidableEq, Repr

inductive DiskFault where
  | missing
  | notFolder
  | isFolder
  | alreadyThere
deriving DecidableEq, Repr

def DiskFault.description : DiskFault → Text
  | missing => lit "ENOENT: no such file or directory"
  | notFolder => lit "ENOTDIR: not a directory"
  | isFolder => lit "EISDIR: illegal operation on a directory"
  | alreadyThere => lit "EEXIST: file already exists"

/-- A failed operation; reading what is open names no path. -/
structure DiskError where
  fault : DiskFault
  operation : String
  path : Option Text
deriving DecidableEq, Repr

def DiskError.message (e : DiskError) : Text :=
  e.fault.description ++ lit ", " ++ lit e.operation ++
    match e.path with
    | none => []
    | some p => lit " '" ++ p ++ lit "'"

structure Disk where
  entries : List (Path × Entry)
  working : Path
deriving DecidableEq, Repr

namespace Disk

/-- What is at a path; the root is always a folder. -/
def get? (d : Disk) (p : Path) : Option Entry :=
  if p = [] then some .folder else d.entries.lookup p

/-- Replaces what is at `p`, or adds it at the end. -/
def put (p : Path) (e : Entry) : List (Path × Entry) → List (Path × Entry)
  | [] => [(p, e)]
  | x :: xs => if x.1 = p then (p, e) :: xs else x :: put p e xs

def insert (d : Disk) (p : Path) (e : Entry) : Disk := { d with entries := put p e d.entries }

/-! ### Building a disk -/

/-- Makes the folders of a path that are not there. -/
def addFolder (d : Disk) (p : Path) : Disk :=
  (p.trail.filter fun q => (d.get? q).isNone).foldl (fun d q => d.insert q .folder) d

/-- Puts a file at a path, with the folders around it. -/
def addFile (d : Disk) (p : Path) (content : Bytes) : Disk :=
  (d.addFolder p.dropLast).insert p (.file content)

/-- A disk with nothing but its working folder. -/
def ofFolder (working : Path) : Disk := addFolder ⟨[], working⟩ working

/-! ### Finding places -/

/-- Walks through folders by names; what is at the end need not exist. -/
def walk (d : Disk) (here : Path) : List Text → Except DiskFault Path
  | [] => .ok here
  | name :: names =>
    match d.get? here with
    | none => .error .missing
    | some (.file _) => .error .notFolder
    | some .folder => walk d (here.step name) names

/-- What a path text names. -/
def find (d : Disk) (t : Text) : Except DiskFault Entry :=
  if t = [] then .error .missing
  else do
    let p ← d.walk (d.working.startOf t) (Path.names t)
    match d.get? p with
    | none => .error .missing
    | some e => .ok e

def has (d : Disk) (t : Text) : Bool := (d.find t).isOk

/-- The content of the file that a path text names. -/
def readFile (d : Disk) (t : Text) : Except DiskError Bytes :=
  match d.find t with
  | .error f => .error ⟨f, "open", some t⟩
  | .ok .folder => .error ⟨.isFolder, "read", none⟩
  | .ok (.file content) => .ok content

/-! ### Changing a disk -/

/-- Makes the folders on a walk by names that are not there. -/
def makeWalk (d : Disk) (here : Path) : List Text → Disk × Option DiskFault
  | [] => (d, none)
  | name :: names =>
    match d.get? (here.step name) with
    | none => makeWalk (d.insert (here.step name) .folder) (here.step name) names
    | some .folder => makeWalk d (here.step name) names
    | some (.file _) => (d, some (if names = [] then .alreadyThere else .notFolder))

/-- Makes the folder that a path text names, and those on the way to it. -/
def makeFolder (d : Disk) (t : Text) : Disk × Option DiskError :=
  let (d', fault) := d.makeWalk (d.working.startOf t) (Path.names t)
  (d', fault.map fun f => ⟨f, "mkdir", some t⟩)

/-- The place of a file to write: its folder must exist, and it must not be a folder itself. -/
def fileToWrite (d : Disk) (t : Text) : Except DiskFault Path :=
  if t = [] then .error .missing
  else do
    let names := Path.names t
    let trailing := names.getLast? = some []
    let p ← d.walk (d.working.startOf t) (names.reverse.dropWhile (· = [])).reverse
    match d.get? p with
    | some .folder => .error .isFolder
    | _ => if trailing then .error .isFolder else .ok p

/-- Writes the file that a path text names. -/
def writeFile (d : Disk) (t : Text) (content : Bytes) : Except DiskError Disk :=
  match d.fileToWrite t with
  | .error f => .error ⟨f, "open", some t⟩
  | .ok p => .ok (d.insert p (.file content))

/-- The files of a disk that are not the same on an earlier one, by path. -/
def changedSince (d earlier : Disk) : List (Text × Bytes) :=
  let changed := d.entries.filterMap fun (p, e) =>
    match e with
    | .folder => none
    | .file content => if earlier.get? p = some e then none else some (Path.text p, content)
  changed.mergeSort fun a b => decide (a.1 ≤ b.1)

end Disk
end Pictogram
