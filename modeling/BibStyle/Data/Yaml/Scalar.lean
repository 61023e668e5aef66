import BibStyle.Data

/-! # Strings in YAML

A string is written plain where a reader would take it for that string, in single quotes where it
would be taken for something else, as a literal block where it has several lines, and in double
quotes where only escapes can keep it.
-/

namespace BibStyle

namespace Data

namespace Yaml

def isBreak (c : Char) : Bool :=
  c == '\n' || c == '\r' || c == '\x85' || c == '\u2028' || c == '\u2029'

def isBlank (c : Char) : Bool := c == ' ' || c == '\t' || isBreak c

def isPrintable (c : Char) : Bool :=
  c == '\n' || (0x20 ≤ c.toNat && c.toNat ≤ 0x7e) ||
    (0xa0 ≤ c.toNat && c != '\ufeff' && c != '\ufffe' && c != '\uffff')

/-- Two characters that satisfy `p` and `q` stand next to each other. -/
def hasPair (p q : Char → Bool) : Text → Bool
  | c :: d :: t => (p c && q d) || hasPair p q (d :: t)
  | _ => false

/-- Only escapes can keep the text: a character does not print, or a space ends a line. -/
def needsEscapes (t : Text) : Bool := t.any (!isPrintable ·) || hasPair (· == ' ') isBreak t

/-- The text is what another kind of value is written as. Of the texts that hold digits only those
that hold nothing else come up. -/
def readsAsOther (t : Text) : Bool :=
  t.all Char.isDigit ||
    ["~", "null", "Null", "NULL", "true", "True", "TRUE", "false", "False", "FALSE"].any
      (·.toList == t)

/-- A colon before a blank or at the end, or a number sign after a blank. -/
def indicatesInside : Text → Bool
  | [] => false
  | [c] => c == ':'
  | c :: d :: t => (c == ':' && isBlank d) || (isBlank c && d == '#') || indicatesInside (d :: t)

/-- A character that means something at the start of a value. -/
def indicatesAtStart : Text → Bool
  | [] => false
  | c :: t =>
      "#,[]\x7b\x7d&*!|>'\"%@`".toList.contains c ||
        ((c == '?' || c == ':' || c == '-') && (t.isEmpty || t.head?.any isBlank))

def isPlain (t : Text) : Bool :=
  !(readsAsOther t || t.any isBreak || t.head? == some ' ' || t.getLast? == some ' ' ||
    indicatesAtStart t || indicatesInside t ||
    ['-', '-', '-'].isPrefixOf t || ['.', '.', '.'].isPrefixOf t)

inductive Style where
  | plain
  | single
  | double
  | literal
deriving DecidableEq, Repr

def style (t : Text) : Style :=
  if t.contains '\n' then
    if needsEscapes t || t.getLast? == some ' ' then .double else .literal
  else if needsEscapes t || hasPair isBreak (· == ' ') t then .double
  else if isPlain t then .plain
  else .single

def hexDigit (n : Nat) : Char := ((Nat.toDigits 16 (n % 16)).headD '0').toUpper

/-- The last `width` hexadecimal digits of a number. -/
def hex : Nat → Nat → Text
  | 0, _ => []
  | width + 1, n => hex width (n / 16) ++ [hexDigit n]

def escape (c : Char) : Text :=
  if c = '\x00' then ['\\', '0']
  else if c = '\x07' then ['\\', 'a']
  else if c = '\x08' then ['\\', 'b']
  else if c = '\t' then ['\\', 't']
  else if c = '\n' then ['\\', 'n']
  else if c = '\x0b' then ['\\', 'v']
  else if c = '\x0c' then ['\\', 'f']
  else if c = '\r' then ['\\', 'r']
  else if c = '\x1b' then ['\\', 'e']
  else if c = '"' then ['\\', '"']
  else if c = '\\' then ['\\', '\\']
  else if c = '\x85' then ['\\', 'N']
  else if c = '\u2028' then ['\\', 'L']
  else if c = '\u2029' then ['\\', 'P']
  else if isPrintable c then [c]
  else if c.toNat ≤ 0xff then ['\\', 'x'] ++ hex 2 c.toNat
  else if c.toNat ≤ 0xffff then ['\\', 'u'] ++ hex 4 c.toNat
  else ['\\', 'U'] ++ hex 8 c.toNat

/-- The inside of single quotes; a new line is indented like the value. -/
def singleBody (margin : Text) (atLineStart : Bool) : Text → Text
  | [] => if atLineStart then margin else []
  | c :: t =>
      if isBreak c then c :: singleBody margin true t
      else
        (if atLineStart then margin else []) ++ (if c = '\x27' then ['\x27', c] else [c]) ++
          singleBody margin false t

/-- The marks after the bar of a literal block: the width of the margin where a reader could not
tell it from the first line, and whether the line breaks at the end are to be dropped or kept. -/
def literalMarks (t : Text) : Text :=
  let hint := if t.head? == some ' ' || t.head? == some '\n' then ['2'] else []
  let chomp := match t.reverse with
    | ['\n'] => ['+']
    | '\n' :: '\n' :: _ => ['+']
    | '\n' :: _ => []
    | _ => ['-']
  hint ++ chomp

/-- The lines of a literal block, each with its line break; empty lines have no margin. -/
def literalBody (margin : Text) (atLineStart : Bool) : Text → Text
  | [] => if atLineStart then [] else ['\n']
  | c :: t =>
      if c = '\n' then c :: literalBody margin true t
      else (if atLineStart then margin else []) ++ c :: literalBody margin false t

/-- The string and the end of its line. Further lines are indented by `indent` spaces. -/
def scalar (indent : Nat) (t : Text) : Text :=
  let margin := List.replicate indent ' '
  match style t with
  | .plain => t ++ ['\n']
  | .single => ['\x27'] ++ singleBody margin false t ++ ['\x27', '\n']
  | .double => ['"'] ++ t.flatMap escape ++ ['"', '\n']
  | .literal => ['|'] ++ literalMarks t ++ ['\n'] ++ literalBody margin true t

end Yaml

end Data

end BibStyle
