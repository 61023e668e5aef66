import BibStyle.Node
import BibStyle.Text.Number

/-! # Values of literals -/

namespace BibStyle

namespace Node

/-- The value of an integer token, if it fits a signed word of 64 bits. -/
def integer? : Node → Option Int
  | .leaf .integer _ ('#' :: t) => (Text.int? t).filter isInt64
  | _ => none

/-- The text of a string token between its quotes. -/
def string? : Node → Option Text
  | .leaf .string _ ('"' :: t) => if t.getLast? = some '"' then some t.dropLast else none
  | _ => none

end Node

end BibStyle
