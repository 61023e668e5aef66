import BibStyle.Data.Yaml.Scalar

/-! # YAML in block form -/

namespace BibStyle

namespace Data

namespace Yaml

def spaces (n : Nat) : String := String.ofList (List.replicate n ' ')

mutual

/-- The lines of a value that stands after the colon of a field at `indent`, in front of `rest`.
-/
def valueOnto (indent : Nat) (d : Data) (rest : List String) : List String :=
  match d with
  | .text t => " " :: String.ofList (scalar (indent + 2) t) :: rest
  | .count n => " " :: toString n :: "\n" :: rest
  | .list [] => " []\n" :: rest
  | .list items => "\n" :: itemsOnto indent items rest
  | .record [] => " \x7b\x7d\n" :: rest
  | .record fields => "\n" :: fieldsOnto (indent + 2) true fields rest

/-- The lines of list items. The first field of a record stands on the line of its dash. -/
def itemsOnto (indent : Nat) (items : List Data) (rest : List String) : List String :=
  match items with
  | [] => rest
  | d :: items =>
      let rest := itemsOnto indent items rest
      spaces indent :: "-" :: match d with
        | .record (field :: fields) =>
            " " :: fieldsOnto (indent + 2) false (field :: fields) rest
        | d => valueOnto indent d rest

/-- The lines of fields; the first is indented only if asked for. -/
def fieldsOnto (indent : Nat) (indentFirst : Bool) (fields : List (String × Data))
    (rest : List String) : List String :=
  match fields with
  | [] => rest
  | (name, d) :: fields =>
      (if indentFirst then spaces indent else "") :: name :: ":" ::
        valueOnto indent d (fieldsOnto indent true fields rest)

end

end Yaml

/-- A record as a YAML document. -/
def yaml : Data → String
  | .record fields => String.join (Yaml.fieldsOnto 0 true fields [])
  | d => String.join (Yaml.valueOnto 0 d [])

end Data

end BibStyle
