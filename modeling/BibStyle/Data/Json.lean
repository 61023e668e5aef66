import BibStyle.Data

/-! # JSON, one value a line -/

namespace BibStyle

namespace Data

namespace Json

def hex (n : Nat) : Char := (Nat.toDigits 16 (n % 16)).headD '0'

def escape (c : Char) : Text :=
  if c = '"' then ['\\', '"']
  else if c = '\\' then ['\\', '\\']
  else if c = '\x08' then ['\\', 'b']
  else if c = '\x0c' then ['\\', 'f']
  else if c = '\n' then ['\\', 'n']
  else if c = '\r' then ['\\', 'r']
  else if c = '\t' then ['\\', 't']
  else if c.toNat < 0x20 then ['\\', 'u', '0', '0', hex (c.toNat / 16), hex c.toNat]
  else [c]

def quote (t : Text) : String := String.ofList ('"' :: t.flatMap escape ++ ['"'])

def newline (depth : Nat) : String := "\n" ++ String.ofList (List.replicate (2 * depth) ' ')

mutual

/-- The pieces of a value whose line is indented by `depth` levels, in front of `rest`. -/
def piecesOnto (depth : Nat) (d : Data) (rest : List String) : List String :=
  match d with
  | .text t => quote t :: rest
  | .count n => toString n :: rest
  | .list [] => "[]" :: rest
  | .list items =>
      "[" :: itemsOnto (depth + 1) items (newline depth :: "]" :: rest)
  | .record [] => "\x7b\x7d" :: rest
  | .record fields =>
      "\x7b" :: fieldsOnto (depth + 1) fields (newline depth :: "\x7d" :: rest)

def itemsOnto (depth : Nat) (items : List Data) (rest : List String) : List String :=
  match items with
  | [] => rest
  | d :: items =>
      let rest := itemsOnto depth items rest
      newline depth :: piecesOnto depth d (if items.isEmpty then rest else "," :: rest)

def fieldsOnto (depth : Nat) (fields : List (String × Data)) (rest : List String) :
    List String :=
  match fields with
  | [] => rest
  | (name, d) :: fields =>
      let rest := fieldsOnto depth fields rest
      newline depth :: quote name.toList :: ": " ::
        piecesOnto depth d (if fields.isEmpty then rest else "," :: rest)

end

end Json

def json (d : Data) : String := String.join (Json.piecesOnto 0 d [])

end Data

end BibStyle
