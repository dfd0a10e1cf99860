import Pictogram.Plane

/-! # Path commands

Path data is a sequence of commands, each a letter and its numbers; a lower-case letter means
coordinates relative to the pen.  Moves and lines take points, curves groups of three points, smooth
curves groups of two, horizontal and vertical lines single coordinates, and a close takes nothing.

`PathData.parse` reads the commands up to the first fault.  A fault is an unknown letter or a number
count that does not make whole segments, and carries the path data from its letter onwards. -/

namespace Pictogram

inductive Verb where
  | move
  | line
  | horizontal
  | vertical
  | curve
  | smooth
  | close
deriving DecidableEq, Repr

/-- Numbers to a segment. -/
def Verb.arity : Verb → Nat
  | move | line => 2
  | horizontal | vertical => 1
  | curve => 6
  | smooth => 4
  | close => 0

/-- A command letter. -/
structure Letter where
  verb : Verb
  relative : Bool
deriving DecidableEq, Repr

namespace Letter

def all : List (CodeUnit × Letter) :=
  [(unit 'M', ⟨.move, false⟩), (unit 'm', ⟨.move, true⟩),
    (unit 'L', ⟨.line, false⟩), (unit 'l', ⟨.line, true⟩),
    (unit 'H', ⟨.horizontal, false⟩), (unit 'h', ⟨.horizontal, true⟩),
    (unit 'V', ⟨.vertical, false⟩), (unit 'v', ⟨.vertical, true⟩),
    (unit 'C', ⟨.curve, false⟩), (unit 'c', ⟨.curve, true⟩),
    (unit 'S', ⟨.smooth, false⟩), (unit 's', ⟨.smooth, true⟩),
    (unit 'Z', ⟨.close, false⟩), (unit 'z', ⟨.close, true⟩)]

def ofUnit? (u : CodeUnit) : Option Letter := all.lookup u

end Letter

/-- A command with its coordinates as written. -/
inductive PathCommand where
  | move (relative : Bool) (points : List Point)
  | line (relative : Bool) (points : List Point)
  | horizontal (relative : Bool) (xs : List Float)
  | vertical (relative : Bool) (ys : List Float)
  | curve (relative : Bool) (groups : List (Point × Point × Point))
  | smooth (relative : Bool) (groups : List (Point × Point))
  | close
deriving DecidableEq, Repr

namespace PathCommand

def couples : List Point → List (Point × Point)
  | p :: q :: rest => (p, q) :: couples rest
  | _ => []

def triples : List Point → List (Point × Point × Point)
  | p :: q :: r :: rest => (p, q, r) :: triples rest
  | _ => []

/-- The command of a letter and a number list that makes whole segments. -/
def assemble (l : Letter) (values : List Float) : PathCommand :=
  match l.verb with
  | .move => move l.relative (Point.pairs values)
  | .line => line l.relative (Point.pairs values)
  | .horizontal => horizontal l.relative values
  | .vertical => vertical l.relative values
  | .curve => curve l.relative (triples (Point.pairs values))
  | .smooth => smooth l.relative (couples (Point.pairs values))
  | .close => close

end PathCommand

namespace PathData

/-- The numbers after a letter; a close takes none. -/
def operands (l : Letter) (t : Text) : List Numeral × Text :=
  if l.verb = .close then ([], t) else Numeral.list t

theorem length_operands_le (l : Letter) (t : Text) : (operands l t).2.length ≤ t.length := by
  unfold operands
  split
  · exact Nat.le_refl _
  · exact Numeral.length_list_le t

/-- What is wrong with a letter that has `count` numbers, in path data from the letter onwards. -/
def arityFault? (l : Letter) (count : Nat) (letter : CodeUnit) (fragment : Text) : Option Fault :=
  if count % l.verb.arity = 0 then none
  else if count % 2 = 0 then some (.incompleteSegment letter fragment)
  else some (.oddCoordinates fragment)

/-- The commands up to the first fault, and that fault. -/
def parse (d : Text) : List PathCommand × Option Fault :=
  match h : Numeral.skipSeparators d with
  | [] => ([], none)
  | u :: t =>
    match Letter.ofUnit? u with
    | none => ([], some (.unknownCommand u (u :: t)))
    | some l =>
      match arityFault? l (operands l t).1.length u (u :: t) with
      | some f => ([], some f)
      | none =>
        have : (operands l t).2.length < d.length := by
          have := Numeral.length_skipSeparators_le d
          have := length_operands_le l t
          simp only [h, List.length_cons] at *
          omega
        let (commands, fault) := parse (operands l t).2
        (PathCommand.assemble l ((operands l t).1.map Numeral.value) :: commands, fault)
termination_by d.length

end PathData
end Pictogram
