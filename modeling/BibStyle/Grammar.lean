import BibStyle.Fault
import BibStyle.Token

/-! # The shape of each command

    ENTRY list list list          READ        EXECUTE { symbol }
    INTEGERS list                 SORT        ITERATE { symbol }
    STRINGS list                              REVERSE { symbol }
    MACRO { pattern } { string }
    FUNCTION { identifier } block

    list  = { identifier* }
    block = { term* }
    term  = integer | string | identifier | builtin | operator | block | ' symbol
-/

namespace BibStyle

/-- What a braced group holds. -/
inductive Class where
  | identifier
  | symbol
  | pattern
  | string
deriving DecidableEq, Repr

namespace Class

def all : List Class := [.identifier, .symbol, .pattern, .string]

def tag : Class → String
  | .identifier => "identifier"
  | .symbol => "symbol"
  | .pattern => "pattern"
  | .string => "string"

def ofTag? (t : String) : Option Class := all.find? fun c => c.tag == t

def accepts : Class → TokenKind → Bool
  | .identifier, k => k == .identifier
  | .symbol, k => k.isSymbol
  | .pattern, k => k == .pattern
  | .string, k => k == .string

def expected : Class → Expected
  | .identifier => .identifier
  | .symbol => .symbol
  | .pattern => .pattern
  | .string => .string

/-- The mode in which the inside of the group is read. -/
def mode : Class → Mode
  | .pattern => .pattern
  | _ => .normal

end Class

/-- A braced part of a statement. -/
inductive Item where
  | list (field : Field)
  | group (field : Field) (cls : Class)
  | block (field : Field)
deriving DecidableEq, Repr

namespace Item

def field : Item → Field
  | .list f | .group f _ | .block f => f

end Item

/-- The parts that follow the keyword of a command. -/
def Command.items : Command → List Item
  | .entry => [.list .fields, .list .integers, .list .strings]
  | .integers => [.list .integers]
  | .strings => [.list .strings]
  | .macroDef => [.group .pattern .pattern, .group .subst .string]
  | .function => [.group .name .identifier, .block .body]
  | .read | .sort => []
  | .execute | .iterate | .reverse => [.group .func .symbol]

end BibStyle
