import Pictogram.Text.Quoted

/-! # Faults and where they lie

A `Fault` is the cause for which a document is rejected; `Fault.message` is its wording and
`Fault.code` its class.  A fault is found with or without a place in the source: `Located.placedAt`
gives it one unless it has one already, so the innermost place wins.  A located fault is reported as
`file:line:column: message`. -/

namespace Pictogram

/-- A place in a source text; lines and columns count from 1, columns by code unit. -/
structure Position where
  line : Nat
  column : Nat
deriving DecidableEq, Repr

namespace Position

/-- The first place of every text. -/
def start : Position := ⟨1, 1⟩

/-- The place after one more unit. -/
def next (p : Position) (u : CodeUnit) : Position :=
  if u = unit '\n' then ⟨p.line + 1, 1⟩ else ⟨p.line, p.column + 1⟩

/-- The place after a stretch of text. -/
def after (p : Position) (t : Text) : Position := t.foldl next p

end Position

/-- Something found, possibly with the place where it was found. -/
structure Located (α : Type) where
  cause : α
  position : Option Position
deriving DecidableEq, Repr

namespace Located

variable {α : Type}

/-- Gives a place to what has none. -/
def placedAt (e : Located α) (p : Position) : Located α :=
  { e with position := e.position <|> some p }

/-- The report of a cause, worded by `message`, in the given file. -/
def report (message : α → Text) (file : Text) (e : Located α) : Text :=
  match e.position with
  | some p => file ++ lit ":" ++ Text.ofNat p.line ++ lit ":" ++ Text.ofNat p.column ++ lit ": " ++ message e.cause
  | none => file ++ lit ": " ++ message e.cause

end Located

/-- The markup constructs that have a terminator of their own. -/
inductive Enclosure where
  | comment
  | instruction
  | characterData
  | declaration
deriving DecidableEq, Repr

def Enclosure.description : Enclosure → Text
  | comment => lit "comment"
  | instruction => lit "processing instruction"
  | characterData => lit "CDATA section"
  | declaration => lit "markup declaration"

/-- Why a document is rejected.  Names are as written in the source; `fragment` is path data from
the command at fault onwards. -/
inductive Fault where
  | invalidRoot (name : Text)
  | unsupportedNamespace (space : Text)
  | unsupportedElement (name : Text)
  | endOfFile
  | endOfElement (name : Text)
  | unterminated (enclosure : Enclosure)
  | missingElementName
  | strayUnit (u : CodeUnit) (element : Text)
  | missingValue (key : Text)
  | unquotedValue (key : Text)
  | straySlash (element : Text)
  | malformedEndTag (name : Text)
  | unopenedEndTag (name : Text)
  | mismatchedEndTag (opened closed : Text)
  | invalidReference (reference : Text)
  | invalidNumber (key value : Text)
  | malformedMatrix (value : Text)
  | invalidViewBox (value : Text)
  | invalidColor (value : Text)
  | oddPoints (value : Text)
  | unsupportedTransform (value : Text)
  | unknownCommand (command : CodeUnit) (fragment : Text)
  | oddCoordinates (fragment : Text)
  | incompleteSegment (command : CodeUnit) (fragment : Text)
deriving DecidableEq, Repr

/-- The classes of faults. -/
inductive FaultCode where
  | invalidRoot
  | unsupportedNamespace
  | unsupportedElement
  | unexpectedEnd
  | malformedMarkup
  | invalidNumber
  | invalidColor
  | invalidPoints
  | unsupportedTransform
  | unknownPathCommand
  | malformedPathData
deriving DecidableEq, Repr

/-- The part of a document that a fault concerns. -/
inductive FaultKind where
  | structural
  | value
  | path
deriving DecidableEq, Repr

def FaultCode.kind : FaultCode → FaultKind
  | invalidRoot | unsupportedNamespace | unsupportedElement | unexpectedEnd | malformedMarkup => .structural
  | invalidNumber | invalidColor | invalidPoints | unsupportedTransform => .value
  | unknownPathCommand | malformedPathData => .path

namespace Fault

def code : Fault → FaultCode
  | invalidRoot _ => .invalidRoot
  | unsupportedNamespace _ => .unsupportedNamespace
  | unsupportedElement _ => .unsupportedElement
  | endOfFile | endOfElement _ | unterminated _ => .unexpectedEnd
  | missingElementName | strayUnit .. | missingValue _ | unquotedValue _ | straySlash _ | malformedEndTag _
  | unopenedEndTag _ | mismatchedEndTag .. | invalidReference _ => .malformedMarkup
  | invalidNumber .. | malformedMatrix _ | invalidViewBox _ => .invalidNumber
  | invalidColor _ => .invalidColor
  | oddPoints _ => .invalidPoints
  | unsupportedTransform _ => .unsupportedTransform
  | unknownCommand .. => .unknownPathCommand
  | oddCoordinates _ | incompleteSegment .. => .malformedPathData

def kind (f : Fault) : FaultKind := f.code.kind

/-- The path data from the command at fault onwards. -/
def fragment? : Fault → Option Text
  | unknownCommand _ fragment | oddCoordinates fragment | incompleteSegment _ fragment => some fragment
  | _ => none

def message : Fault → Text
  | invalidRoot name => lit "invalid SVG root: <" ++ name ++ lit ">"
  | unsupportedNamespace space => lit "unsupported SVG namespace: " ++ space
  | unsupportedElement name => lit "unsupported tag: <" ++ name ++ lit ">"
  | endOfFile => lit "unexpected end of file"
  | endOfElement name => lit "unexpected end of <" ++ name ++ lit "> element"
  | unterminated enclosure => lit "unterminated " ++ enclosure.description
  | missingElementName => lit "expected element name after <"
  | strayUnit u element => lit "unexpected " ++ Text.quoted [u] ++ lit " in <" ++ element ++ lit ">"
  | missingValue key => lit "attribute " ++ key ++ lit " has no value"
  | unquotedValue key => lit "unquoted value for attribute " ++ key
  | straySlash element => lit "expected /> to close <" ++ element ++ lit ">"
  | malformedEndTag name => lit "malformed end tag </" ++ name ++ lit ">"
  | unopenedEndTag name => lit "unexpected end element </" ++ name ++ lit ">"
  | mismatchedEndTag opened closed => lit "element <" ++ opened ++ lit "> closed by </" ++ closed ++ lit ">"
  | invalidReference reference => lit "invalid character reference " ++ reference
  | invalidNumber key value => lit "invalid " ++ key ++ lit " attribute: " ++ value.quoted
  | malformedMatrix value => lit "malformed transform matrix: " ++ value.quoted
  | invalidViewBox value => lit "invalid viewBox attribute: " ++ value
  | invalidColor value => lit "invalid color: " ++ value.quoted
  | oddPoints value => lit "odd number of coordinates in points attribute: " ++ value.quoted
  | unsupportedTransform value => lit "unsupported transform: " ++ value.quoted
  | unknownCommand command fragment => lit "unknown <path> command " ++ [command] ++ lit " in " ++ fragment.quoted
  | oddCoordinates fragment => lit "odd number of coordinates in <path> data: " ++ fragment.quoted
  | incompleteSegment command fragment =>
    lit "incomplete " ++ [command] ++ lit " segment in <path> data: " ++ fragment.quoted

end Fault

/-- A fault of a document, with its place once that is known. -/
abbrev CompileError := Located Fault

/-- A fault whose place is not known yet. -/
def Fault.unplaced (f : Fault) : CompileError := ⟨f, none⟩

def Fault.placed (f : Fault) (p : Position) : CompileError := ⟨f, some p⟩

end Pictogram
