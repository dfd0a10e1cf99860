import Pictogram.CommandLine.Batch
import Pictogram.CommandLine.Options
import Pictogram.Disk.Expand

/-! # The command

A run takes a disk and the arguments, and gives what is printed, the exit code and the disk after
it.  The inputs are expanded to files, the files compiled as a batch, and the pictures written as a
module, printed as JSON, or listed. -/

namespace Pictogram
namespace CommandLine

def versionNumber : Text := lit "0.1.0"

def defaultOutput : Text := lit "svg.ts"

def help : Text := lit "
svgop - Compile SVG icons into drawing programs

USAGE:
  svgop [options] <file.svg...>       Write a TypeScript module with one image per file
  svgop --json <file.svg...>          Print the compiled programs as JSON
  svgop --info <file.svg...>          Show view box and shape count

SUPPORTED SUBSET:
  Elements: svg, g (flattened), title (ignored), rect, circle, ellipse,
            line, polygon, polyline, path
  Path data: M m L l H h V v C c S s Z z
  Paint: none, #RRGGBB, #RRGGBBAA; transform: matrix(a,b,c,d,e,f)

OPTIONS:
  -o, --out <file>         Output module (default: " ++ defaultOutput ++ lit ")
  --host-module <spec>     Module the generated code imports DrawHost from
  --json                   Print JSON instead of writing a module
  -k, --keep-going         Report failing files and continue with the rest
  -v, --verbose            Verbose output
  --quiet                  Suppress output
  --help                   Show this help
  --version                Show version

EXAMPLES:
  svgop icons/*.svg -o src/icons.ts
  svgop \"icons/**/*.svg\" --host-module ./draw-host
  svgop --info logo.svg
"

/-- What a run prints, its exit code, and the disk after it. -/
structure Effect where
  exit : Nat
  out : Text
  err : Text
  disk : Disk
deriving DecidableEq, Repr

def line (t : Text) : Text := t ++ [unit '\n']

def lines (ts : List Text) : Text := ts.flatMap line

/-- Lines of the two streams. -/
structure Messages where
  out : List Text
  err : List Text
deriving DecidableEq, Repr

/-! ### Inputs -/

/-- Why the inputs give no files. -/
inductive InputError where
  | unmatched (input : Text)
  | disk (e : DiskError)
deriving DecidableEq, Repr

def InputError.message : InputError → Text
  | unmatched input => lit "No files matched: " ++ input
  | disk e => e.message

/-- The files of one input, of which there must be some. -/
def filesOf (d : Disk) (input : Text) : Except InputError (List Text) :=
  match d.expand (lit ".") input with
  | .error e => .error (.disk e)
  | .ok [] => .error (.unmatched input)
  | .ok files => .ok files

/-- The files of all inputs, in order. -/
def filesOfAll (d : Disk) : List Text → Except InputError (List Text)
  | [] => .ok []
  | input :: inputs => do
    let files ← filesOf d input
    let others ← filesOfAll d inputs
    return files ++ others

/-! ### Reports -/

def shapeCount (c : CompiledFile) : Text := Text.ofNat c.picture.shapes.length

/-- What is said about a file as soon as it is done. -/
def report (o : Options) : FileResult → Messages
  | .compiled c =>
    ⟨if o.verbose && !o.quiet then
        [Path.baseName c.file ++ lit " → " ++ c.name ++ lit " (" ++ shapeCount c ++ lit " shapes)"]
      else [], []⟩
  | .failed _ error => ⟨[], if o.quiet then [] else [error]⟩

def viewBoxText : Option ViewBox → Text
  | none => lit "none"
  | some b => (lit " ").intercalate ([b.min.x, b.min.y, b.max.x, b.max.y].map Decimal.ofFloat)

def segmentCount (p : Picture) : Nat := (p.shapes.flatMap Shape.outline).length

/-- The listing of one picture. -/
def infoLines (c : CompiledFile) : List Text :=
  [unit '\n' :: lit "Source: " ++ c.file, lit "Name: " ++ c.name,
    lit "ViewBox: " ++ viewBoxText c.picture.viewBox, lit "Shapes: " ++ shapeCount c,
    lit "Path ops: " ++ Text.ofNat (segmentCount c.picture)]

/-- The closing line of a batch of several files that kept going. -/
def summary (o : Options) (files : List Text) (b : Batch) : List Text :=
  if !o.quiet && 1 < files.length && o.keepGoing then
    [unit '\n' :: lit "Done: " ++ Text.ofNat b.compiled.length ++ lit " compiled, " ++
      Text.ofNat b.failed.length ++ lit " failed"]
  else []

/-! ### Output -/

/-- The absolute path text of the output module. -/
def outputPath (d : Disk) (o : Options) : Text := (d.working.follow (o.out.getD defaultOutput)).text

/-- Lists, prints or writes the pictures: the lines printed, the disk, and what went wrong. -/
def produce (d : Disk) (o : Options) (cs : List CompiledFile) : List Text × Disk × Option CompiledFile.WriteError :=
  if o.info then (cs.flatMap infoLines ++ (if o.quiet then [] else [[]]), d, none)
  else if o.json then ([CompiledFile.jsonText cs], d, none)
  else
    let out := outputPath d o
    match CompiledFile.writeModule d out o.hostModule cs with
    | (d, some e) => ([], d, some e)
    | (d, none) =>
      (if o.quiet then [] else [lit "Wrote " ++ Text.ofNat cs.length ++ lit " image(s) to " ++ out], d, none)

/-- Compiles files and produces the output. -/
def runFiles (d : Disk) (o : Options) (files : List Text) : Effect :=
  let b := Batch.ofFiles d o.keepGoing files
  let out := b.results.flatMap fun r => (report o r).out
  let err := b.results.flatMap fun r => (report o r).err
  if b.producesOutput o.keepGoing then
    match produce d o b.compiled with
    | (printed, d, some e) => ⟨1, lines (out ++ printed), lines (err ++ [e.message]), d⟩
    | (printed, d, none) =>
      ⟨if b.failed.isEmpty then 0 else 1, lines (out ++ printed ++ summary o files b), lines err, d⟩
  else ⟨1, lines out, lines err, d⟩

/-- Runs the command. -/
def run (d : Disk) (arguments : List Text) : Effect :=
  match Arguments.read arguments with
  | .error u => ⟨1, [], line u.message, d⟩
  | .ok ⟨inputs, o⟩ =>
    if o.help || (inputs.isEmpty && !o.version) then ⟨0, line help, [], d⟩
    else if o.version then ⟨0, line (lit "svgop v" ++ versionNumber), [], d⟩
    else match filesOfAll d inputs with
      | .error e => ⟨1, [], line e.message, d⟩
      | .ok files => runFiles d o files

end CommandLine
end Pictogram
