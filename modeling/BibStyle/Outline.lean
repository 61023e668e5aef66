import BibStyle.Located

/-! # What a style file declares -/

namespace BibStyle

inductive DeclarationKind where
  | function
  | macroDef
  | entryField
  | entryInteger
  | entryString
  | integer
  | string
deriving DecidableEq, Repr

namespace DeclarationKind

def tag : DeclarationKind → String
  | .function => "function"
  | .macroDef => "macro"
  | .entryField => "entry_field"
  | .entryInteger => "entry_integer"
  | .entryString => "entry_string"
  | .integer => "integer"
  | .string => "string"

def label : DeclarationKind → String
  | .function => "function"
  | .macroDef => "macro"
  | .entryField => "entry field"
  | .entryInteger => "entry integer"
  | .entryString => "entry string"
  | .integer => "integer"
  | .string => "string"

end DeclarationKind

structure Declaration where
  kind : DeclarationKind
  name : Text
  span : Span
  /-- The bytes of the statement that declares the name. -/
  statement : Span
deriving DecidableEq, Repr

namespace Outline

def declare (statement : Located) (kind : DeclarationKind) (name : Located) : Declaration :=
  ⟨kind, name.text, name.span, statement.span⟩

/-- The one name in a field. -/
def ofField (statement : Located) (field : Field) (kind : DeclarationKind) : List Declaration :=
  ((statement.child? field).map (declare statement kind)).toList

/-- The names in the list that a field holds. -/
def ofList (statement : Located) (field : Field) (kind : DeclarationKind) : List Declaration :=
  match statement.child? field with
  | some list =>
      (list.children.filter (·.kind == .token .identifier)).map (declare statement kind)
  | none => []

def ofStatement (l : Located) : List Declaration :=
  match l.kind with
  | .node (.statement .function) => ofField l .name .function
  | .node (.statement .macroDef) => ofField l .pattern .macroDef
  | .node (.statement .entry) =>
      ofList l .fields .entryField ++ ofList l .integers .entryInteger ++
        ofList l .strings .entryString
  | .node (.statement .integers) => ofList l .integers .integer
  | .node (.statement .strings) => ofList l .strings .string
  | _ => []

end Outline

/-- The declarations of a tree in the order of the text. -/
structure Outline where
  declarations : List Declaration
deriving DecidableEq, Repr

def Tree.outline (t : Tree) : Outline := ⟨t.statements.flatMap Outline.ofStatement⟩

namespace Outline

def functions (o : Outline) : List Declaration := o.declarations.filter (·.kind == .function)

/-- The first function declared under a name. -/
def function? (o : Outline) (name : Text) : Option Declaration :=
  o.functions.find? (·.name == name)

end Outline

end BibStyle
