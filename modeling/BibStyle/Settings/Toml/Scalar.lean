import BibStyle.Settings.Value
import BibStyle.Text.Number

/-! # Strings, numbers and dates of TOML -/

namespace BibStyle

namespace Settings

namespace Toml

/-- Reads a part of a text; nothing if the text does not start with such a part. -/
abbrev Reads (α : Type) := Text → Option (α × Text)

/-! ## Strings -/

/-- Characters that may stand for themselves: all but control characters, with the tab. -/
def isVisible (c : Char) : Bool := c == '\t' || (0x20 ≤ c.toNat && c.toNat != 0x7f)

def hexValue? (c : Char) : Option Nat :=
  if c.isDigit then some (c.toNat - '0'.toNat)
  else if 'a' ≤ c.toLower && c.toLower ≤ 'f' then some (c.toLower.toNat - 'a'.toNat + 10)
  else none

/-- The character with a code point of `count` hexadecimal digits. -/
def codePoint (count : Nat) : Reads Char := fun t => do
  let digits ← (t.take count).mapM hexValue?
  if digits.length ≠ count then none
  else
    let n := digits.foldl (fun n d => 16 * n + d) 0
    if n.isValidChar then some (Char.ofNat n, t.drop count) else none

/-- The character that an escape stands for, after its backslash. -/
def escape : Reads Char
  | 'b' :: t => some ('\x08', t)
  | 't' :: t => some ('\t', t)
  | 'n' :: t => some ('\n', t)
  | 'f' :: t => some ('\x0c', t)
  | 'r' :: t => some ('\r', t)
  | '"' :: t => some ('"', t)
  | '\\' :: t => some ('\\', t)
  | 'u' :: t => codePoint 4 t
  | 'U' :: t => codePoint 8 t
  | _ => none

/-- The rest of a string on one line, up to its closing quote. -/
def line (quote : Char) : Nat → Reads Text
  | 0, _ => none
  | _, [] => none
  | fuel + 1, c :: t =>
      if c = quote then some ([], t)
      else if c = '\\' && quote = '"' then do
        let (d, t) ← escape t
        let (s, t) ← line quote fuel t
        some (d :: s, t)
      else if isVisible c then do
        let (s, t) ← line quote fuel t
        some (c :: s, t)
      else none

def isBlank (c : Char) : Bool := c == ' ' || c == '\t'

/-- Skips blanks and line ends. -/
def skipLines : Text → Text
  | ' ' :: t | '\t' :: t | '\n' :: t => skipLines t
  | '\r' :: '\n' :: t => skipLines t
  | t => t

/-- The text after a line end that only blanks come before. -/
def lineEnd? (t : Text) : Option Text :=
  match t.dropWhile isBlank with
  | '\n' :: t => some t
  | '\r' :: '\n' :: t => some t
  | _ => none

/-- The rest of a string of several lines, up to its three closing quotes; one or two quotes more
belong to the string. -/
def lines (quote : Char) : Nat → Reads Text
  | 0, _ => none
  | _, [] => none
  | fuel + 1, c :: t =>
      let more (d : Char) (t : Text) : Option (Text × Text) := do
        let (s, t) ← lines quote fuel t
        some (d :: s, t)
      if c = quote then
        let run := min 5 (1 + (t.takeWhile (· == quote)).length)
        if run < 3 then more c t
        else some (List.replicate (run - 3) quote, t.drop (run - 1))
      else if c = '\\' && quote = '"' then
        match lineEnd? t with
        | some t => lines quote fuel (skipLines t)
        | none => do
            let (d, t) ← escape t
            more d t
      else match c, t with
        | '\n', t => more '\n' t
        | '\r', '\n' :: t => more '\n' t
        | c, t => if isVisible c then more c t else none

/-- A line end right after the opening quotes does not belong to the string. -/
def dropLineEnd : Text → Text
  | '\n' :: t => t
  | '\r' :: '\n' :: t => t
  | t => t

/-- A string on one line; these also serve as keys. -/
def quotedKey : Reads Text
  | '"' :: t => line '"' (t.length + 1) t
  | '\x27' :: t => line '\x27' (t.length + 1) t
  | _ => none

def string : Reads Text
  | '"' :: '"' :: '"' :: t => lines '"' (t.length + 1) (dropLineEnd t)
  | '\x27' :: '\x27' :: '\x27' :: t => lines '\x27' (t.length + 1) (dropLineEnd t)
  | t => quotedKey t

/-! ## Numbers -/

/-- Digits, with single underscores between them, in the base given by `value?`. -/
def digits? (value? : Char → Option Nat) : Text → Option (List Nat)
  | [] => none
  | [c] => (value? c).map ([·])
  | c :: '_' :: t => do some ((← value? c) :: (← digits? value? t))
  | c :: t => do some ((← value? c) :: (← digits? value? t))

def decimalValue? (c : Char) : Option Nat := (hexValue? c).filter (· < 10)

def number (base : Nat) (digits : List Nat) : Nat := digits.foldl (fun n d => base * n + d) 0

/-- Decimal digits; a zero stands in front only by itself. -/
def decimal? (t : Text) : Option (List Nat) :=
  match t with
  | '0' :: _ :: _ => none
  | t => digits? decimalValue? t

/-- A sign in front of a number, if there is one. -/
def sign : Text → Bool × Text
  | '-' :: t => (true, t)
  | '+' :: t => (false, t)
  | t => (false, t)

def based? (base : Nat) (t : Text) : Option Int :=
  (digits? (fun c => (hexValue? c).filter (· < base)) t).map fun ds => Int.ofNat (number base ds)

def integer? (t : Text) : Option Int :=
  match t with
  | '0' :: 'x' :: t => based? 16 t
  | '0' :: 'o' :: t => based? 8 t
  | '0' :: 'b' :: t => based? 2 t
  | t =>
      let (negative, t) := sign t
      (decimal? t).map fun ds =>
        if negative then -Int.ofNat (number 10 ds) else Int.ofNat (number 10 ds)

def isExponentMark (c : Char) : Bool := c == 'e' || c == 'E'

/-- The exponent of a float, after its mark. -/
def exponent? : Text → Option Int
  | [] => some 0
  | _ :: t =>
      let (negative, t) := sign t
      (digits? decimalValue? t).map fun ds =>
        if negative then -Int.ofNat (number 10 ds) else Int.ofNat (number 10 ds)

/-- The digits after the point of a float. -/
def fraction? : Text → Option (List Nat)
  | [] => some []
  | '.' :: t => digits? decimalValue? t
  | _ => none

/-- The float nearest to `digits · 10 ^ exponent`. -/
def scientific (digits : Nat) (exponent : Int) : Float :=
  if exponent < 0 then Float.ofScientific digits true exponent.natAbs
  else Float.ofScientific digits false exponent.natAbs

/-- A number above the largest float is refused; one below the smallest counts as infinite. -/
def float? (t : Text) : Option Float :=
  let (negative, t) := sign t
  let magnitude : Option Float :=
    if t = ['i', 'n', 'f'] then some (1.0 / 0.0)
    else if t = ['n', 'a', 'n'] then some (0.0 / 0.0)
    else do
      let mantissa := t.takeWhile (!isExponentMark ·)
      let mark := t.dropWhile (!isExponentMark ·)
      if mark.isEmpty && !mantissa.contains '.' then none
      else
        let whole ← decimal? (mantissa.takeWhile (· != '.'))
        let fraction ← fraction? (mantissa.dropWhile (· != '.'))
        let power ← exponent? mark
        let x := scientific (number 10 (whole ++ fraction)) (power - fraction.length)
        if x.isInf && !negative then none else some x
  magnitude.map fun x => if negative then -x else x

/-! ## Dates -/

/-- A number of exactly `count` digits between two bounds. -/
def field (count low high : Nat) : Reads Nat := fun t => do
  let ds := t.take count
  if ds.length ≠ count then none
  else
    let n ← Text.nat? ds
    if low ≤ n && n ≤ high then some (n, t.drop count) else none

def after? (c : Char) : Text → Option Text
  | d :: t => if c = d then some t else none
  | [] => none

def isLeap (year : Nat) : Bool := year % 4 == 0 && (year % 100 != 0 || year % 400 == 0)

def daysIn (year month : Nat) : Nat :=
  if month = 2 then (if isLeap year then 29 else 28)
  else if month = 4 || month = 6 || month = 9 || month = 11 then 30
  else 31

/-- The text after a date such as `1979-05-27`. -/
def date? (t : Text) : Option Text := do
  let (year, t) ← field 4 0 9999 t
  let t ← after? '-' t
  let (month, t) ← field 2 1 12 t
  let t ← after? '-' t
  let (_, t) ← field 2 1 (daysIn year month) t
  some t

/-- The text after a time such as `07:32:00.5`. -/
def time? (t : Text) : Option Text := do
  let (_, t) ← field 2 0 23 t
  let t ← after? ':' t
  let (_, t) ← field 2 0 59 t
  let t ← after? ':' t
  let (_, t) ← field 2 0 60 t
  match t with
  | '.' :: t => if (t.takeWhile Char.isDigit).isEmpty then none else some (t.dropWhile Char.isDigit)
  | t => some t

/-- Nothing, `Z`, or an offset such as `-07:00`, up to the end of the text. -/
def isOffset : Text → Bool
  | [] => true
  | [c] => c == 'Z' || c == 'z'
  | c :: t => (c == '+' || c == '-') && ((do
      let (_, t) ← field 2 0 23 t
      let t ← after? ':' t
      let (_, t) ← field 2 0 59 t
      if t.isEmpty then some () else none).isSome)

/-- A date, a time, or both with an offset. -/
def isDateTime (t : Text) : Bool :=
  match date? t with
  | some [] => true
  | some (c :: t) =>
      (c == 'T' || c == 't' || c == ' ') && (match time? t with
        | some t => isOffset t
        | none => false)
  | none => time? t == some []

end Toml

end Settings

end BibStyle
