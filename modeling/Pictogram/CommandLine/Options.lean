import Pictogram.Text.Basic

/-! # Command-line arguments

An argument is a flag, an option followed by its value, or an input.  A value is any text that is
not empty, even one that begins with a dash; an input does not begin with a dash.  Of a repeated
option the last value counts. -/

namespace Pictogram

structure Options where
  out : Option Text
  hostModule : Option Text
  json : Bool
  keepGoing : Bool
  verbose : Bool
  quiet : Bool
  info : Bool
  help : Bool
  version : Bool
deriving DecidableEq, Repr

/-- The inputs and options of a command line. -/
structure Arguments where
  inputs : List Text
  options : Options
deriving DecidableEq, Repr

inductive Flag where
  | help
  | version
  | info
  | json
  | verbose
  | quiet
  | keepGoing
deriving DecidableEq, Repr

/-- The options that take a value. -/
inductive Setting where
  | out
  | hostModule
deriving DecidableEq, Repr

namespace Flag

def all : List (Text × Flag) :=
  [(lit "--help", help), (lit "-?", help), (lit "--version", version), (lit "-V", version), (lit "--info", info),
    (lit "-i", info), (lit "--json", json), (lit "--verbose", verbose), (lit "-v", verbose), (lit "--quiet", quiet),
    (lit "--keep-going", keepGoing), (lit "-k", keepGoing)]

def ofText? (t : Text) : Option Flag := all.lookup t

end Flag

namespace Setting

def all : List (Text × Setting) := [(lit "--out", out), (lit "-o", out), (lit "--host-module", hostModule)]

def ofText? (t : Text) : Option Setting := all.lookup t

end Setting

namespace Options

def unset : Options :=
  { out := none, hostModule := none, json := false, keepGoing := false, verbose := false, quiet := false
    info := false, help := false, version := false }

def raise (o : Options) : Flag → Options
  | .help => { o with help := true }
  | .version => { o with version := true }
  | .info => { o with info := true }
  | .json => { o with json := true }
  | .verbose => { o with verbose := true }
  | .quiet => { o with quiet := true }
  | .keepGoing => { o with keepGoing := true }

def set (o : Options) (value : Text) : Setting → Options
  | .out => { o with out := some value }
  | .hostModule => { o with hostModule := some value }

end Options

namespace Arguments

/-- An argument that is no input, flag or option with a value. -/
structure Unknown where
  argument : Text
deriving DecidableEq, Repr

def Unknown.message (u : Unknown) : Text := lit "Unknown option: " ++ u.argument

def isInput (t : Text) : Bool := t.head? ≠ some (unit '-')

/-- Adds the arguments of a list, in order, to what is known of the command line. -/
def readFrom (known : Arguments) : List Text → Except Unknown Arguments
  | [] => .ok known
  | a :: rest =>
    match Flag.ofText? a with
    | some flag => readFrom { known with options := known.options.raise flag } rest
    | none =>
      match Setting.ofText? a with
      | some setting =>
        match rest with
        | [] => .error ⟨a⟩
        | value :: rest =>
          if value = [] then .error ⟨a⟩
          else readFrom { known with options := known.options.set value setting } rest
      | none => if isInput a then readFrom { known with inputs := known.inputs ++ [a] } rest else .error ⟨a⟩

/-- Reads a command line. -/
def read (arguments : List Text) : Except Unknown Arguments := readFrom ⟨[], .unset⟩ arguments

end Arguments
end Pictogram
