import Pictogram.Disk.Basic
import Pictogram.Picture.Compile
import Pictogram.Picture.Json
import Pictogram.Script.Module

/-! # Batches of files

Files are compiled in order.  Each gives a picture, named after the file, or a report of what is
wrong with it.  A batch that does not keep going stops at its first failure and then produces
nothing. -/

namespace Pictogram

structure CompiledFile where
  file : Text
  name : Text
  picture : Picture
deriving DecidableEq, Repr

/-- The result of one file. -/
inductive FileResult where
  | compiled (c : CompiledFile)
  | failed (file report : Text)
deriving DecidableEq, Repr

namespace FileResult

def isFailed : FileResult → Bool
  | compiled _ => false
  | failed .. => true

def compiled? : FileResult → Option CompiledFile
  | compiled c => some c
  | failed .. => none

def failed? : FileResult → Option (Text × Text)
  | compiled _ => none
  | failed file report => some (file, report)

/-- Reads and compiles one file. -/
def ofFile (d : Disk) (file : Text) : FileResult :=
  match d.readFile file with
  | .error e => failed file (Located.report DiskError.message file ⟨e, none⟩)
  | .ok content =>
    match Picture.compileBytes content with
    | .error e => failed file (e.report Fault.message file)
    | .ok picture => compiled { file, name := ImageName.ofFile file, picture }

end FileResult

/-- The results of a batch, in order. -/
structure Batch where
  results : List FileResult
deriving DecidableEq, Repr

namespace Batch

/-- The results of files in order, up to the first failure unless the batch keeps going. -/
def resultsOf (d : Disk) (keepGoing : Bool) : List Text → List FileResult
  | [] => []
  | file :: files =>
    let r := FileResult.ofFile d file
    if r.isFailed && !keepGoing then [r] else r :: resultsOf d keepGoing files

def ofFiles (d : Disk) (keepGoing : Bool) (files : List Text) : Batch := ⟨resultsOf d keepGoing files⟩

def compiled (b : Batch) : List CompiledFile := b.results.filterMap FileResult.compiled?

/-- The files that failed, with their reports. -/
def failed (b : Batch) : List (Text × Text) := b.results.filterMap FileResult.failed?

/-- Whether a batch goes on to its output. -/
def producesOutput (b : Batch) (keepGoing : Bool) : Bool := b.failed.isEmpty || keepGoing

end Batch

namespace CompiledFile

def image (c : CompiledFile) : Image := ⟨c.name, c.picture⟩

def json (c : CompiledFile) : Json :=
  .record [("file", .text c.file), ("name", .text c.name), ("viewBox", .ofViewBox c.picture.viewBox),
    ("shapes", .array (c.picture.shapes.map .ofShape))]

/-- The JSON text of compiled files. -/
def jsonText (cs : List CompiledFile) : Text := (Json.array (cs.map json)).render 0

/-- Why a module is not written. -/
inductive WriteError where
  | name (e : ImageNameError)
  | disk (e : DiskError)
deriving DecidableEq, Repr

def WriteError.message : WriteError → Text
  | name e => e.message
  | disk e => e.message

/-- Makes the folder of a file to write, if it is not there. -/
def prepareFolder (d : Disk) (out : Text) : Disk × Option DiskError :=
  if d.has (Path.parentText out) then (d, none) else d.makeFolder (Path.parentText out)

/-- Writes the module of compiled files; the disk may have new folders even if that fails. -/
def writeModule (d : Disk) (out : Text) (hostModule : Option Text) (cs : List CompiledFile) :
    Disk × Option WriteError :=
  match Script.write hostModule (cs.map image) with
  | .error e => (d, some (.name e))
  | .ok source =>
    match prepareFolder d out with
    | (d, some e) => (d, some (.disk e))
    | (d, none) =>
      match d.writeFile out source.encodeUtf8 with
      | .error e => (d, some (.disk e))
      | .ok d => (d, none)

end CompiledFile
end Pictogram
