import BibStyle.Text

/-! # Values of settings -/

namespace BibStyle

namespace Settings

/-- What a settings file or an override gives for a key. -/
inductive Value where
  | nothing
  | bool (value : Bool)
  | int (value : Int)
  | float (value : Float)
  | text (value : Text)
  | list (items : List Value)
  | table (entries : List (Text × Value))

/-- Keys and words of values match in either case. -/
def lower (t : Text) : Text := t.map Char.toLower

namespace Value

/-- Insert in place of an entry of the same key, or at the end. -/
def insert (key : Text) (v : Value) : List (Text × Value) → List (Text × Value)
  | [] => [(key, v)]
  | (k, w) :: rest => if k = key then (k, v) :: rest else (k, w) :: insert key v rest

def find? (key : Text) (entries : List (Text × Value)) : Option Value :=
  (entries.find? fun (k, _) => k == key).map (·.2)

/-- The entries of a table; any other value has none. -/
def entries : Value → List (Text × Value)
  | .table es => es
  | _ => []

/-- The items of a list; any other value has none. -/
def items : Value → List Value
  | .list vs => vs
  | _ => []

def get? (v : Value) (key : Text) : Option Value := find? key v.entries

/-- Put an item at a place of a list. Places that the list has to grow by hold nothing. -/
def putAt (v : Value) (place : Nat) (vs : List Value) : List Value :=
  if place < vs.length then vs.set place v
  else vs ++ List.replicate (place - vs.length) .nothing ++ [v]

mutual

/-- What becomes of a value when another is laid over it: tables are merged entry by entry, and
anything else takes its place. An empty table changes nothing that is there. -/
def overlay (below : Option Value) : Value → Value
  | .table es =>
      match below, es with
      | some v, [] => v
      | some v, es => .table (overlayAll v.entries es)
      | none, es => .table (overlayAll [] es)
  | v => v

def overlayAll (below : List (Text × Value)) : List (Text × Value) → List (Text × Value)
  | [] => below
  | (key, v) :: rest =>
      overlayAll (insert (lower key) (overlay (find? (lower key) below) v) below) rest

end

end Value

end Settings

end BibStyle
