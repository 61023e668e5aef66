import BibStyle.Kind
import BibStyle.Text

/-! # Faults recorded in a tree -/

namespace BibStyle

/-- Constructs that the end of the text or the next keyword can leave open. -/
inductive Construct where
  | string
  | block
  | group
  | identifierList
deriving DecidableEq, Repr

namespace Construct

def all : List Construct := [.string, .block, .group, .identifierList]

def tag : Construct → String
  | .string => "string"
  | .block => "block"
  | .group => "group"
  | .identifierList => "identifier_list"

def ofTag? (t : String) : Option Construct := all.find? fun c => c.tag == t

def label : Construct → String
  | .string => "string literal"
  | .block => "block"
  | .group => "braced group"
  | .identifierList => "identifier list"

end Construct

/-- What was looked for where a marker stands. -/
inductive Expected where
  | lbrace
  | rbrace
  | identifier
  | symbol
  | pattern
  | string
deriving DecidableEq, Repr

namespace Expected

def all : List Expected := [.lbrace, .rbrace, .identifier, .symbol, .pattern, .string]

def tag : Expected → String
  | .lbrace => "l_brace"
  | .rbrace => "r_brace"
  | .identifier => "identifier"
  | .symbol => "symbol"
  | .pattern => "pattern"
  | .string => "string"

def ofTag? (t : String) : Option Expected := all.find? fun e => e.tag == t

def label : Expected → String
  | .lbrace => "\"\x7b\""
  | .rbrace => "\"\x7d\""
  | .identifier => "identifier"
  | .symbol => "symbol"
  | .pattern => "pattern"
  | .string => "string"

end Expected

inductive Fault where
  | strayChar
  | unterminated (construct : Construct)
  | unexpected (found : Kind)
  | missing (expected : Expected)
deriving DecidableEq, Repr

namespace Fault

def tag : Fault → String
  | .strayChar => "lex_error"
  | .unterminated _ => "unterminated_construct"
  | .unexpected _ => "unexpected_token"
  | .missing _ => "missing_token"

def message : Fault → String
  | .strayChar => "unrecognized character"
  | .unterminated c => s!"unterminated {c.label}"
  | .unexpected k => s!"unexpected {k.label}"
  | .missing e => s!"missing {e.label}"

/-- The fault of a token by itself. -/
def ofToken? : TokenKind → Option Fault
  | .strayChar => some .strayChar
  | .openString => some (.unterminated .string)
  | _ => none

end Fault

/-- A fault and the bytes it concerns. -/
structure Diagnostic where
  span : Span
  fault : Fault
deriving DecidableEq, Repr

def Diagnostic.render (d : Diagnostic) : String := s!"{d.span.render}: {d.fault.message}"

end BibStyle
