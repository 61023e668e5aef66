/-! # Kinds of tokens and nodes -/

namespace BibStyle

inductive TokenKind where
  | whitespace
  | comment
  | strayChar
  | openString
  | lbrace
  | rbrace
  | quote
  | keyword
  | identifier
  | builtin
  | pattern
  | integer
  | string
  | operator
deriving DecidableEq, Repr

/-- The ten commands of a style file. -/
inductive Command where
  | entry
  | integers
  | strings
  | macroDef
  | function
  | read
  | execute
  | iterate
  | sort
  | reverse
deriving DecidableEq, Repr

inductive NodeKind where
  | sourceFile
  | statement (command : Command)
  | block
  | ref
  | identifierList
  | error
deriving DecidableEq, Repr

inductive Kind where
  | token (kind : TokenKind)
  | node (kind : NodeKind)
deriving DecidableEq, Repr

/-- The part a child plays in its parent. -/
inductive Field where
  | fields
  | integers
  | strings
  | pattern
  | subst
  | name
  | body
  | term
  | symbol
  | func
deriving DecidableEq, Repr

/-- Families of kinds that the grammar treats alike. -/
inductive Supertype where
  | statement
  | term
  | symbol
deriving DecidableEq, Repr

namespace TokenKind

def all : List TokenKind :=
  [.whitespace, .comment, .strayChar, .openString, .lbrace, .rbrace, .quote, .keyword,
    .identifier, .builtin, .pattern, .integer, .string, .operator]

theorem mem_all (k : TokenKind) : k ∈ all := by cases k <;> decide

def tag : TokenKind → String
  | .whitespace => "whitespace"
  | .comment => "comment"
  | .strayChar => "lex_error"
  | .openString => "unterminated_string"
  | .lbrace => "l_brace"
  | .rbrace => "r_brace"
  | .quote => "quote"
  | .keyword => "keyword"
  | .identifier => "identifier"
  | .builtin => "builtin"
  | .pattern => "pattern"
  | .integer => "integer"
  | .string => "string"
  | .operator => "operator"

def isTrivia : TokenKind → Bool
  | .whitespace | .comment => true
  | _ => false

/-- Tokens that no rule of the grammar asks for: trivia and what the lexer could not read. -/
def isFiller : TokenKind → Bool
  | .whitespace | .comment | .strayChar | .openString => true
  | _ => false

/-- Tokens that are a term of a block by themselves. -/
def isTerm : TokenKind → Bool
  | .integer | .string | .identifier | .builtin | .operator => true
  | _ => false

def isSymbol : TokenKind → Bool
  | .identifier | .builtin => true
  | _ => false

theorem isFiller_of_isTrivia {k : TokenKind} (h : k.isTrivia = true) : k.isFiller = true := by
  cases k <;> simp_all [isTrivia, isFiller]

end TokenKind

namespace Command

def all : List Command :=
  [.entry, .integers, .strings, .macroDef, .function, .read, .execute, .iterate, .sort, .reverse]

theorem mem_all (c : Command) : c ∈ all := by cases c <;> decide

def tag : Command → String
  | .entry => "entry"
  | .integers => "integers"
  | .strings => "strings"
  | .macroDef => "macro"
  | .function => "function"
  | .read => "read"
  | .execute => "execute"
  | .iterate => "iterate"
  | .sort => "sort"
  | .reverse => "reverse"

/-- The keyword in capitals, the form it is looked up in. -/
def keyword : Command → String
  | .entry => "ENTRY"
  | .integers => "INTEGERS"
  | .strings => "STRINGS"
  | .macroDef => "MACRO"
  | .function => "FUNCTION"
  | .read => "READ"
  | .execute => "EXECUTE"
  | .iterate => "ITERATE"
  | .sort => "SORT"
  | .reverse => "REVERSE"

/-- The command that a word names; ASCII letters match in either case. -/
def ofWord? (word : List Char) : Option Command :=
  let upper := word.map Char.toUpper
  all.find? fun c => c.keyword.toList == upper

theorem ofWord?_keyword (c : Command) : ofWord? c.keyword.toList = some c := by
  cases c <;> decide

end Command

namespace NodeKind

def all : List NodeKind :=
  .sourceFile :: Command.all.map .statement ++ [.block, .ref, .identifierList, .error]

theorem mem_all (k : NodeKind) : k ∈ all := by
  cases k with
  | statement c => simp [all, Command.mem_all]
  | _ => simp [all]

def tag : NodeKind → String
  | .sourceFile => "source_file"
  | .statement c => c.tag
  | .block => "block"
  | .ref => "ref"
  | .identifierList => "identifier_list"
  | .error => "error"

def isStatement : NodeKind → Bool
  | .statement _ => true
  | _ => false

end NodeKind

namespace Kind

/-- Every kind, tokens first. -/
def all : List Kind := TokenKind.all.map .token ++ NodeKind.all.map .node

theorem mem_all (k : Kind) : k ∈ all := by
  cases k <;> simp [all, TokenKind.mem_all, NodeKind.mem_all]

/-- The spelling of a kind in data. -/
def tag : Kind → String
  | .token k => k.tag
  | .node k => k.tag

def ofTag? (t : String) : Option Kind := all.find? fun k => k.tag == t

/-- The spelling of a kind in dumps: punctuation is written as itself. -/
def name : Kind → String
  | .token .lbrace => "\x7b"
  | .token .rbrace => "\x7d"
  | .token .quote => "'"
  | .node .error => "ERROR"
  | k => k.tag

/-- The spelling of a kind in messages: punctuation stands in double quotes. -/
def label : Kind → String
  | .token .lbrace => "\"\x7b\""
  | .token .rbrace => "\"\x7d\""
  | .token .quote => "\"'\""
  | k => k.name

def isToken : Kind → Bool
  | .token _ => true
  | .node _ => false

def isTrivia : Kind → Bool
  | .token k => k.isTrivia
  | .node _ => false

def isFiller : Kind → Bool
  | .token k => k.isFiller
  | .node _ => false

def isTermToken : Kind → Bool
  | .token k => k.isTerm
  | .node _ => false

/-- Kinds that carry meaning of their own; punctuation, keywords and blanks do not. -/
def isNamed : Kind → Bool
  | .token .whitespace | .token .lbrace | .token .rbrace | .token .quote | .token .keyword => false
  | _ => true

def isA : Kind → Supertype → Bool
  | .node (.statement _), .statement => true
  | .token k, .term => k.isTerm
  | .node .block, .term | .node .ref, .term => true
  | .token k, .symbol => k.isSymbol
  | _, _ => false

end Kind

namespace Field

def all : List Field :=
  [.fields, .integers, .strings, .pattern, .subst, .name, .body, .term, .symbol, .func]

def tag : Field → String
  | .fields => "fields"
  | .integers => "integers"
  | .strings => "strings"
  | .pattern => "pattern"
  | .subst => "subst"
  | .name => "name"
  | .body => "body"
  | .term => "term"
  | .symbol => "symbol"
  | .func => "func"

def ofTag? (t : String) : Option Field := all.find? fun f => f.tag == t

end Field

namespace Supertype

def all : List Supertype := [.statement, .term, .symbol]

def tag : Supertype → String
  | .statement => "statement"
  | .term => "term"
  | .symbol => "symbol"

def ofTag? (t : String) : Option Supertype := all.find? fun s => s.tag == t

end Supertype

/-- The families a kind belongs to. -/
def Kind.supertypes (k : Kind) : List Supertype := Supertype.all.filter k.isA

end BibStyle
