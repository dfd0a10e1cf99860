import Pictogram.Text.Basic

/-! # Tables of named texts

Attributes and namespace bindings keep the order in which their names first appear; a repeated name
takes the last value and keeps its first place. -/

namespace Pictogram

structure Table where
  entries : List (Text × Text)
deriving DecidableEq, Repr

namespace Table

def empty : Table := ⟨[]⟩

def get? (t : Table) (name : Text) : Option Text := t.entries.lookup name

/-- Replaces the value of `name` where it stands, or adds it at the end. -/
def put (name value : Text) : List (Text × Text) → List (Text × Text)
  | [] => [(name, value)]
  | e :: es => if e.1 = name then (name, value) :: es else e :: put name value es

def insert (t : Table) (name value : Text) : Table := ⟨put name value t.entries⟩

def ofList (entries : List (Text × Text)) : Table :=
  entries.foldl (fun t e => t.insert e.1 e.2) empty

end Table
end Pictogram
