import Pictogram.Markup.Reader
import Pictogram.Proofs.Markup.Escaping

/-! # Written element trees

A `Source` is an element tree as it is written: elements with labelled names and all their attributes,
texts, and character data sections.  `Source.Writes n t` says that `t` is one of the ways to write `n`:
the blanks, the quotes, the escapes and the form of an element without children are free.

`Source.events` are the tokens that a tree stands for, places apart.  The namespace of an element is
looked up in its `Scope`, in which a declaration on the element itself comes before those around it. -/

namespace Pictogram

/-- A token without its place. -/
inductive Event where
  | opening (name : ElementName) (attributes : List (Text × Text))
  | closing (name : ElementName)
  | text (content : Text)
deriving DecidableEq, Repr

def Token.event : Token → Event
  | opening name attributes _ => .opening name attributes.entries
  | closing name _ => .closing name
  | text content _ => .text content

/-! ### Scopes -/

/-- The namespaces in force: what each label stands for, if it is declared. -/
abbrev Scope := Text → Option Text

namespace Scope

def outermost : Scope := fun _ => none

/-- The attribute that declares a label. -/
def declaring (label : Text) : Text := if label = [] then lit "xmlns" else lit "xmlns:" ++ label

/-- The scope inside an element with the given attributes. -/
def within (scope : Scope) (attributes : List (Text × Text)) : Scope := fun label =>
  (attributes.lookup (declaring label)).or (scope label)

/-- A written name at its first colon. -/
def splitAtColon : Text → Option (Text × Text)
  | [] => none
  | u :: t => if u = unit ':' then some ([], t) else (splitAtColon t).map fun (label, tag) => (u :: label, tag)

/-- The namespace of a label is what it is declared as, or the label itself. -/
def space (scope : Scope) (label : Text) : Text := (scope label).getD label

def name (scope : Scope) (written : Text) : ElementName :=
  match splitAtColon written with
  | none => ⟨scope.space [], written⟩
  | some (label, tag) => ⟨scope.space label, tag⟩

end Scope

/-! ### Trees -/

inductive Source where
  | element (written : Text) (attributes : List (Text × Text)) (children : List Source)
  | text (content : Text)
  | characterData (content : Text)

namespace Source

def isText : Source → Bool
  | text _ => true
  | _ => false

mutual

/-- The events of a tree in document order.  Declarations and labelled attributes are left out. -/
def events (scope : Scope) : Source → List Event
  | element written attributes children =>
      let inner := scope.within attributes
      let name := inner.name written
      .opening name (attributes.filter fun e => e.1 ≠ lit "xmlns" && !e.1.contains (unit ':')) ::
        (eventsAll inner children ++ [.closing name])
  | text content => [.text content]
  | characterData content => [.text content]

def eventsAll (scope : Scope) : List Source → List Event
  | [] => []
  | n :: ns => events scope n ++ eventsAll scope ns

end

/-- The names of elements and attributes. -/
def IsName (t : Text) : Prop := t ≠ [] ∧ ∀ u ∈ t, Cursor.isNameUnit u

/-- Attributes have different names, and none declares a label without naming it. -/
structure AttributesOk (attributes : List (Text × Text)) : Prop where
  isName : ∀ e ∈ attributes, IsName e.1
  nodup : (attributes.map Prod.fst).Nodup
  labelled : ∀ e ∈ attributes, e.1 ≠ lit "xmlns:"

mutual

/-- Texts are not empty and do not touch; character data does not hold its own terminator. -/
def WellFormed : Source → Prop
  | element written attributes children => IsName written ∧ AttributesOk attributes ∧ WellFormedAll children
  | text content => content ≠ []
  | characterData content => ¬ lit "]]>" <:+: content

def WellFormedAll : List Source → Prop
  | [] => True
  | n :: ns => WellFormed n ∧ (n.isText → ∀ m ∈ ns.head?, m.isText = false) ∧ WellFormedAll ns

end

theorem isName_iff {t : Text} : IsName t ↔ t ≠ [] ∧ t.all Cursor.isNameUnit := by
  rw [IsName, List.all_eq_true]

instance (t : Text) : Decidable (IsName t) := decidable_of_iff _ isName_iff.symm

theorem attributesOk_iff {attributes : List (Text × Text)} : AttributesOk attributes ↔
    (∀ e ∈ attributes, IsName e.1) ∧ (attributes.map Prod.fst).Nodup ∧ ∀ e ∈ attributes, e.1 ≠ lit "xmlns:" :=
  ⟨fun h => ⟨h.isName, h.nodup, h.labelled⟩, fun ⟨isName, nodup, labelled⟩ => ⟨isName, nodup, labelled⟩⟩

instance (attributes : List (Text × Text)) : Decidable (AttributesOk attributes) :=
  decidable_of_iff _ attributesOk_iff.symm

mutual

def decideWellFormed : (n : Source) → Decidable n.WellFormed
  | element written attributes children =>
      have := decideWellFormedAll children
      inferInstanceAs (Decidable (IsName written ∧ AttributesOk attributes ∧ WellFormedAll children))
  | text content => inferInstanceAs (Decidable (content ≠ []))
  | characterData content => inferInstanceAs (Decidable (¬ lit "]]>" <:+: content))

def decideWellFormedAll : (ns : List Source) → Decidable (WellFormedAll ns)
  | [] => .isTrue trivial
  | n :: ns =>
      have := decideWellFormed n
      have := decideWellFormedAll ns
      inferInstanceAs (Decidable (WellFormed n ∧ (n.isText → ∀ m ∈ ns.head?, m.isText = false) ∧ WellFormedAll ns))

end

instance (n : Source) : Decidable n.WellFormed := decideWellFormed n

/-! ### Writing -/

def IsBlank (t : Text) : Prop := ∀ u ∈ t, u.isBlank

instance (t : Text) : Decidable (IsBlank t) := decidable_of_iff (t.all CodeUnit.isBlank) List.all_eq_true

/-- An attribute after at least one blank, with its value escaped between quotes of either kind. -/
def WritesAttribute (entry : Text × Text) (t : Text) : Prop :=
  ∃ b₁ b₂ b₃ raw quote, b₁ ≠ [] ∧ IsBlank b₁ ∧ IsBlank b₂ ∧ IsBlank b₃ ∧ Tag.isQuote quote ∧
    Reference.Escapes Reference.Kind.all entry.2 raw ∧ quote ∉ raw ∧
    t = b₁ ++ (entry.1 ++ (b₂ ++ unit '=' :: (b₃ ++ quote :: (raw ++ [quote]))))

def WritesAttributes : List (Text × Text) → Text → Prop
  | [], t => t = []
  | entry :: entries, t => ∃ t₁ t₂, WritesAttribute entry t₁ ∧ WritesAttributes entries t₂ ∧ t = t₁ ++ t₂

mutual

/-- The ways to write a tree. -/
def Writes : Source → Text → Prop
  | element written attributes children, t =>
      ∃ inside b, WritesAttributes attributes inside ∧ IsBlank b ∧
        ((children = [] ∧ t = unit '<' :: (written ++ (inside ++ (b ++ lit "/>")))) ∨
          ∃ content b', WritesAll children content ∧ IsBlank b' ∧
            t = unit '<' :: (written ++ (inside ++ (b ++ unit '>' :: (content ++
              (lit "</" ++ (written ++ (b' ++ lit ">"))))))))
  | text content, t => Reference.Escapes Reference.Kind.all content t ∧ unit '<' ∉ t
  | characterData content, t => t = lit "<![CDATA[" ++ (content ++ lit "]]>")

def WritesAll : List Source → Text → Prop
  | [], t => t = []
  | n :: ns, t => ∃ t₁ t₂, Writes n t₁ ∧ WritesAll ns t₂ ∧ t = t₁ ++ t₂

end

end Source
end Pictogram
