import BibStyle.Settings.Value
import BibStyle.Text.Number

/-! # Paths to a setting -/

namespace BibStyle

namespace Settings

/-- A step of a path: into the entry of a table, or into an item of a list. -/
inductive Part where
  | key (name : Text)
  | item (index : Int)
deriving DecidableEq

abbrev Path := List Part

namespace Path

def isKeyChar (c : Char) : Bool := c.isAlphanum || c == '_' || c == '-' || c == ' '

/-- Blanks may stand around an index. -/
def isPadding (c : Char) : Bool := c == ' ' || c == '\t'

/-- The index written between two brackets, which has no plus sign and fits a word of 64 bits. -/
def index? (t : Text) : Option Int :=
  let digits := ((t.dropWhile isPadding).reverse.dropWhile isPadding).reverse
  if digits.head? = some '+' then none else (Text.int? digits).filter isInt64

/-- The rest of a path, `fuel` bounding the number of its parts. -/
def restOf (fuel : Nat) : Text → Option Path
  | [] => some []
  | '.' :: t =>
      match fuel, t.takeWhile isKeyChar with
      | 0, _ | _, [] => none
      | fuel + 1, name => (restOf fuel (t.dropWhile isKeyChar)).map (.key (lower name) :: ·)
  | '[' :: t =>
      match fuel, t.dropWhile (· != ']') with
      | fuel + 1, ']' :: rest => do
          let index ← index? (t.takeWhile (· != ']'))
          (restOf fuel rest).map (.item index :: ·)
      | _, _ => none
  | _ => none

/-- A path is a key, followed by further keys after dots and by indices in brackets. -/
def parse? (t : Text) : Option Path := restOf t.length ('.' :: t)

end Path

namespace Value

/-- The place that an index means in a list. An index below zero counts from the end, and stops at
the first item. -/
def placeOf (index : Int) (vs : List Value) : Nat :=
  if 0 ≤ index then index.toNat else (vs.length + index).toNat

/-- Lay a value over what a path leads to. Whatever stands in the way of the path gives way to it,
and an item that the path ends in gives way as a whole. -/
def set (v : Value) : Path → Option Value → Value
  | [], below => overlay below v
  | .key name :: path, below =>
      let es := (below.map entries).getD []
      .table (insert name (set v path (find? name es)) es)
  | .item index :: path, below =>
      let vs := (below.map items).getD []
      let place := placeOf index vs
      let item := if path.isEmpty then v else set v path vs[place]?
      .list (putAt item place vs)

end Value

end Settings

end BibStyle
