import BibStyle.Text

/-! # Data to be written out -/

namespace BibStyle

/-- Strings, counts, lists, and records with their fields in order. -/
inductive Data where
  | text (value : Text)
  | count (value : Nat)
  | list (items : List Data)
  | record (fields : List (String × Data))

namespace Data

def str (s : String) : Data := .text s.toList

/-- A record of the fields that are present. -/
def present (fields : List (String × Option Data)) : Data :=
  .record (fields.filterMap fun (name, value) => value.map (name, ·))

end Data

end BibStyle
