import Pictogram.Fault
import Pictogram.Text.Table

/-! # Tokens of markup

Reading markup yields opening tags, closing tags and texts.  The name of an element is its tag
together with a namespace: the innermost declaration of its label among the element itself and the
elements around it, or the label itself when there is none. -/

namespace Pictogram

structure ElementName where
  space : Text
  tag : Text
deriving DecidableEq, Repr

inductive Token where
  | opening (name : ElementName) (attributes : Table) (position : Position)
  | closing (name : ElementName) (position : Position)
  | text (content : Text) (position : Position)
deriving DecidableEq, Repr

namespace Token

def isClosing : Token → Bool
  | closing .. => true
  | _ => false

/-- The name, attributes and place of an opening tag. -/
def opening? : Token → Option (ElementName × Table × Position)
  | opening name attributes position => some (name, attributes, position)
  | _ => none

end Token

/-- An element whose end is still to come: its name as written and as resolved, and the namespaces
that it declares. -/
structure OpenElement where
  written : Text
  name : ElementName
  declared : Table
deriving DecidableEq, Repr

namespace ElementName

/-- The label before the first colon, which is empty when there is no colon, and the tag. -/
def split (written : Text) : Text × Text :=
  let label := written.takeWhile (· ≠ unit ':')
  if label.length < written.length then (label, written.drop (label.length + 1)) else ([], written)

/-- Resolves a written name by the declarations in force, innermost first. -/
def resolve (scopes : List Table) (written : Text) : ElementName :=
  let (label, tag) := split written
  ⟨(scopes.findSome? fun declared => declared.get? label).getD label, tag⟩

end ElementName

namespace Table

/-- The namespace that an attribute declares, and its label. -/
def declaration? (entry : Text × Text) : Option (Text × Text) :=
  if entry.1 = lit "xmlns" then some ([], entry.2)
  else (Text.stripFront? (lit "xmlns:") entry.1).map fun label => (label, entry.2)

/-- The namespaces that the attributes of an element declare. -/
def declarations (attributes : Table) : Table := ofList (attributes.entries.filterMap declaration?)

/-- The attributes without namespace declarations and labelled names. -/
def unlabelled (attributes : Table) : Table :=
  ⟨attributes.entries.filter fun e => e.1 ≠ lit "xmlns" && !e.1.contains (unit ':')⟩

end Table

/-- The fault of a text that ends with these elements open. -/
def Fault.unexpectedEnd : (opened : List OpenElement) → Fault
  | [] => .endOfFile
  | e :: _ => .endOfElement e.written

end Pictogram
