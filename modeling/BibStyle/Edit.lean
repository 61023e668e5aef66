import BibStyle.Text

/-! # Edits of a text -/

namespace BibStyle

/-- Put `replacement` in the place of the bytes of `span`. -/
structure Edit where
  span : Span
  replacement : Text
deriving DecidableEq, Repr

inductive EditError where
  | staleText
  | outOfBounds (span : Span) (size : Nat)
  | notBoundary (offset : Nat)
  | lengthMismatch (expected found : Nat)
  | textMismatch (offset : Nat)
deriving DecidableEq, Repr

namespace EditError

def message : EditError → String
  | .staleText => "the old text does not match the text the tree was parsed from"
  | .outOfBounds span size => s!"edit range {span.render} is outside the {size} byte document"
  | .notBoundary offset => s!"edit offset {offset} is not on a character boundary"
  | .lengthMismatch expected found =>
      s!"new text does not match the edit: expected {expected} bytes, found {found}"
  | .textMismatch offset => s!"new text does not match the edit at byte {offset}"

end EditError

namespace Edit

/-- The text before and the text after the bytes to be replaced. -/
def split (e : Edit) (t : Text) : Except EditError (Text × Text) :=
  if e.span.start > e.span.stop || e.span.stop > t.size then
    .error (.outOfBounds e.span t.size)
  else match t.cut? e.span.start, t.cut? e.span.stop with
    | none, _ => .error (.notBoundary e.span.start)
    | _, none => .error (.notBoundary e.span.stop)
    | some (before, _), some (_, after) => .ok (before, after)

/-- The edited text. -/
def apply (e : Edit) (t : Text) : Except EditError Text :=
  (e.split t).map fun (before, after) => before ++ e.replacement ++ after

theorem apply_eq_ok_iff {e : Edit} {t u : Text} :
    e.apply t = .ok u ↔
      ∃ before after, e.split t = .ok (before, after) ∧ u = before ++ e.replacement ++ after := by
  unfold apply
  cases h : e.split t with
  | error error => simp [Except.map]
  | ok parts =>
      obtain ⟨before, after⟩ := parts
      constructor
      · intro hu
        simp only [Except.map, Except.ok.injEq] at hu
        exact ⟨before, after, rfl, hu.symm⟩
      · rintro ⟨b, a, hs, rfl⟩
        simp only [Except.ok.injEq, Prod.mk.injEq] at hs
        obtain ⟨rfl, rfl⟩ := hs
        rfl

/-- The size of the edited text, for a text of `size` bytes. -/
def newSize (e : Edit) (size : Nat) : Nat := size - e.span.length + e.replacement.size

/-- Where the replacement ends in the edited text. -/
def insertedTo (e : Edit) : Nat := e.span.start + e.replacement.size

end Edit

end BibStyle
