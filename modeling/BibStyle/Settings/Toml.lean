import BibStyle.Settings.Toml.Table

/-! # Settings files in TOML -/

namespace BibStyle

namespace Settings

namespace Toml

def skipBlanks (t : Text) : Text := t.dropWhile isBlank

def isBareKey (c : Char) : Bool := c.isAlphanum || c == '_' || c == '-'

def simpleKey : Reads Text := fun t =>
  match t.takeWhile isBareKey with
  | [] => quotedKey t
  | key => some (key, t.dropWhile isBareKey)

/-- Values are nested, and keys have names, up to this number. -/
def depth : Nat := 79

/-- A key of at most `names` names with dots between them, all but the last leading to a table. -/
def keyWithin : Nat → Reads (List Text × Text)
  | 0, _ => none
  | names + 1, t => do
      let (name, t) ← simpleKey (skipBlanks t)
      match skipBlanks t with
      | '.' :: t => do
          let ((path, last), t) ← keyWithin names t
          some ((name :: path, last), t)
      | t => some (([], name), t)

def key : Reads (List Text × Text) := keyWithin depth

/-- What follows a comment, which ends before the end of its line. -/
def comment? (t : Text) : Option Text :=
  match t with
  | '#' :: t =>
      match t.dropWhile isVisible with
      | '\r' :: '\n' :: rest => some ('\r' :: '\n' :: rest)
      | '\n' :: rest => some ('\n' :: rest)
      | [] => some []
      | _ => none
  | t => some t

/-- Skips blanks, line ends and at most `fuel` comments. -/
def skipLayout : Nat → Text → Option Text
  | 0, t => some t
  | fuel + 1, t =>
      match skipLines t with
      | '#' :: t => do skipLayout fuel (← comment? ('#' :: t))
      | t => some t

def isAtomChar (c : Char) : Bool :=
  c.isAlphanum || c == '_' || c == '+' || c == '-' || c == '.' || c == ':'

/-- The text of a number, a date or a word. A blank may stand between a date and a time. -/
def atom (t : Text) : Text × Text :=
  let word := t.takeWhile isAtomChar
  match t.dropWhile isAtomChar with
  | ' ' :: rest =>
      let both := word ++ ' ' :: rest.takeWhile isAtomChar
      if isDateTime word && isDateTime both then (both, rest.dropWhile isAtomChar)
      else (word, ' ' :: rest)
  | rest => (word, rest)

def atomItem? (t : Text) : Option Item :=
  if t = ['t', 'r', 'u', 'e'] then some (.scalar (.bool true))
  else if t = ['f', 'a', 'l', 's', 'e'] then some (.scalar (.bool false))
  else if isDateTime t then some (.date t)
  else match integer? t with
    | some n => if isInt64 n then some (.scalar (.int n)) else none
    | none => (float? t).map fun x => .scalar (.float x)

mutual

/-- A value in which brackets and braces may open `levels` deep. The fuel is never less than the
number of characters left. -/
def value (levels : Nat) : Nat → Reads Item
  | 0, _ => none
  | fuel + 1, t =>
      match levels, t with
      | _, '"' :: _ | _, '\x27' :: _ => (string t).map fun (s, t) => (.scalar (.text s), t)
      | 0, '[' :: _ | 0, '{' :: _ => none
      | levels + 1, '[' :: t => (items levels fuel t).map fun (vs, t) => (.list vs, t)
      | levels + 1, '{' :: t =>
          match skipBlanks t with
          | '}' :: t => some (.table .inline [], t)
          | t => (pairs levels fuel [] t).map fun (es, t) => (.table .inline es, t)
      | _, t => do
          let (word, t) := atom t
          some (← atomItem? word, t)

/-- The rest of an array, up to its bracket. -/
def items (levels : Nat) : Nat → Reads (List Item)
  | 0, _ => none
  | fuel + 1, t => do
      match ← skipLayout (fuel + 1) t with
      | ']' :: t => some ([], t)
      | t =>
          let (item, t) ← value levels fuel t
          match ← skipLayout (fuel + 1) t with
          | ',' :: t =>
              let (vs, t) ← items levels fuel t
              some (item :: vs, t)
          | ']' :: t => some ([item], t)
          | _ => none

/-- The rest of a table in braces, which stands on one line and has at least one more entry. -/
def pairs (levels : Nat) : Nat → Entries → Reads Entries
  | 0, _, _ => none
  | fuel + 1, es, t => do
      let ((path, last), t) ← key t
      match t with
      | '=' :: t =>
          let (item, t) ← value levels fuel (skipBlanks t)
          let es ← es.put path last item
          match skipBlanks t with
          | ',' :: t => pairs levels fuel es t
          | '}' :: t => some (es, t)
          | _ => none
      | _ => none

end

/-- What is left after the end of a line. -/
def endLine (t : Text) : Option Text := do
  match ← comment? (skipBlanks t) with
  | [] => some []
  | '\n' :: t => some t
  | '\r' :: '\n' :: t => some t
  | _ => none

/-- Reads the lines of a file one after the other. Entries go into the table of the last header,
to which `path` leads. -/
def document : Nat → List Text → Entries → Text → Option Entries
  | 0, _, es, _ => some es
  | fuel + 1, path, es, t =>
      match skipLines t with
      | [] => some es
      | '#' :: t => do document fuel path es (← endLine ('#' :: t))
      | '[' :: '[' :: t => do
          let ((table, last), t) ← key t
          match t with
          | ']' :: ']' :: t =>
              document fuel (table ++ [last]) (← es.openTables table last) (← endLine t)
          | _ => none
      | '[' :: t => do
          let ((table, last), t) ← key t
          match t with
          | ']' :: t => document fuel (table ++ [last]) (← es.openTable table last) (← endLine t)
          | _ => none
      | t => do
          let ((inner, last), t) ← key t
          match t with
          | '=' :: t =>
              let (item, t) ← value depth (t.length + 1) (skipBlanks t)
              let es ← es.within false (fun _ => Entries.put inner last item) path .header
              document fuel path es (← endLine t)
          | _ => none

/-- The entries of a document, if it is well-formed. A byte order mark may stand in front. -/
def parse? (t : Text) : Option (List (Text × Value)) := do
  let t := match t with
    | '\ufeff' :: t => t
    | t => t
  Entries.document? (← document (t.length + 1) [] [] t)

end Toml

end Settings

end BibStyle
