import BibStyle.Located
import BibStyle.Text.Quoted

/-! # Values spelled out in messages -/

namespace BibStyle

namespace Describe

def capitalize : Text → Text
  | [] => []
  | c :: t => c.toUpper :: t

/-- The words of a tag run together, each with a capital: `l_brace` becomes `LBrace`. -/
def constructor (tag : String) : String :=
  String.join ((tag.splitOn "_").map fun word => String.ofList (capitalize word.toList))

def option {α : Type} (f : α → String) : Option α → String
  | some a => s!"Some({f a})"
  | none => "None"

def list {α : Type} (f : α → String) (as : List α) : String :=
  "[" ++ String.intercalate ", " (as.map f) ++ "]"

def text (t : Text) : String := String.ofList t.quoted

def kind (k : Kind) : String := constructor k.tag

def field (f : Field) : String := constructor f.tag

/-- A constructor with one named argument. -/
def record (name argument value : String) : String := s!"{name} \x7b {argument}: {value} \x7d"

def fault (e : Fault) : String :=
  let name := constructor e.tag
  match e with
  | .strayChar => name
  | .unterminated c => record name "construct" (constructor c.tag)
  | .unexpected k => record name "found" (kind k)
  | .missing x => record name "expected" (constructor x.tag)

def diagnostic (d : Diagnostic) : String :=
  s!"Diagnostic \x7b range: {d.span.render}, error: {fault d.fault} \x7d"

end Describe

end BibStyle
