import BibStyle.Settings.Toml.Scalar

/-! # Tables of TOML under construction

A document is read into items, which remember how a table came to be and in which order its entries
did. Only at the end do they become values.
-/

namespace BibStyle

namespace Settings

namespace Toml

/-- How a table came to be, which decides what may still be added to it. -/
inductive Origin where
  /-- It has a header of its own. -/
  | header
  /-- It is on the way to a table with a header. -/
  | implied
  /-- It comes from a dotted key. -/
  | dotted
  /-- It is written in braces, and nothing can be added to it. -/
  | inline
deriving DecidableEq

inductive Item where
  | scalar (v : Value)
  | date (t : Text)
  | list (items : List Item)
  | table (origin : Origin) (entries : List (Text × Item))
  /-- An array of tables, of which only the last can still grow. -/
  | tables (before : List Item) (last : List (Text × Item))

abbrev Entries := List (Text × Item)

/-! ## Growing -/

namespace Entries

/-- Replace what stands under a key, or refuse to. -/
def alter (key : Text) (f : Option Item → Option Item) : Entries → Option Entries
  | [] => (f none).map fun item => [(key, item)]
  | (k, item) :: rest =>
      if k = key then (f (some item)).map fun item => (k, item) :: rest
      else (alter key f rest).map ((k, item) :: ·)

/-- Follow a path of tables, making those that are missing, and change the entries it leads to.
A dotted key does not reach into a table that has a header. -/
def within (viaDots : Bool) (f : Origin → Entries → Option Entries) :
    List Text → Origin → Entries → Option Entries
  | [], origin, es => f origin es
  | key :: path, _, es => alter key (fun
      | none =>
          let origin := if viaDots then .dotted else .implied
          (within viaDots f path origin []).map (.table origin)
      | some (.table .header sub) =>
          if viaDots then none else (within viaDots f path .header sub).map (.table .header)
      | some (.table .implied sub) => (within viaDots f path .implied sub).map (.table .implied)
      | some (.table .dotted sub) => (within viaDots f path .dotted sub).map (.table .dotted)
      | some (.tables before last) =>
          (within viaDots f path .header last).map (.tables before)
      | some _ => none) es

/-- Add an item under a dotted key. The key must be new, and a key of several parts goes into
tables made by such keys only. -/
def put (path : List Text) (key : Text) (item : Item) (es : Entries) : Option Entries :=
  within true (fun origin es =>
    if decide (origin = .dotted) = path.isEmpty then none
    else alter key (fun
      | none => some item
      | some _ => none) es) path .header es

/-- Open a table by its header, behind all entries there are. -/
def openTable (path : List Text) (key : Text) (es : Entries) : Option Entries :=
  within false (fun _ es =>
    match es.lookup key with
    | none => some (es ++ [(key, .table .header [])])
    | some (.table .implied sub) => some (es.filter (·.1 != key) ++ [(key, .table .header sub)])
    | some _ => none) path .header es

/-- Open another table of an array of tables. -/
def openTables (path : List Text) (key : Text) (es : Entries) : Option Entries :=
  within false (fun _ => alter key fun
    | none => some (.tables [] [])
    | some (.tables before last) => some (.tables (before ++ [.table .header last]) [])
    | some _ => none) path .header es

/-! ## Values -/

/-- The key of an entry that makes a date of its table. -/
def dateKey : Text := "$__toml_private_datetime".toList

/-- A table that has the key for dates in front is one, whatever else it has. Nothing if it has
not, and nothing inside if what it gives is no string with a date. -/
def date? : Entries → Option (Option Text)
  | (key, item) :: _ =>
      if key = dateKey then
        match item with
        | .scalar (.text t) => some (if isDateTime t then some t else none)
        | _ => some none
      else none
  | [] => none

end Entries

mutual

/-- The value of an item, if all dates in it are dates. -/
def Item.toValue? : Item → Option Value
  | .scalar v => some v
  | .date t => some (.text t)
  | .list items => (Item.toValues? items).map .list
  | .table _ es =>
      match Entries.date? es with
      | some date => date.map .text
      | none => (Entries.toValues? es).map .table
  | .tables before last => do
      let vs ← Item.toValues? before
      match Entries.date? last with
      | some date => date.map fun t => .list (vs ++ [.text t])
      | none => (Entries.toValues? last).map fun es => .list (vs ++ [.table es])

def Item.toValues? : List Item → Option (List Value)
  | [] => some []
  | item :: items => do some ((← item.toValue?) :: (← Item.toValues? items))

def Entries.toValues? : List (Text × Item) → Option (List (Text × Value))
  | [] => some []
  | (key, item) :: es => do some ((key, ← item.toValue?) :: (← Entries.toValues? es))

end

/-- The values of a whole document, which is no date. -/
def Entries.document? (es : Entries) : Option (List (Text × Value)) :=
  if (date? es).isSome then none else toValues? es

end Toml

end Settings

end BibStyle
