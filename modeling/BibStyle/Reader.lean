import BibStyle.Reparse
import BibStyle.Utf8

/-! # Reading input of limited size -/

namespace BibStyle

/-- Why input is not taken. -/
inductive Refusal where
  | tooLarge (size limit : Nat)
  | encoding (error : Utf8.Error)
  | edit (error : ReparseError)
deriving DecidableEq, Repr

def Refusal.message : Refusal → String
  | .tooLarge size limit =>
      s!"input of {size} bytes exceeds the configured limit of {limit} bytes"
  | .encoding error => s!"input is not valid UTF-8: {error.message}"
  | .edit error => error.message

/-- Takes input of at most `limit` bytes; zero sets no limit. -/
structure Reader where
  limit : Nat
deriving DecidableEq, Repr

namespace Reader

def unlimited : Reader := ⟨0⟩

def checkSize (r : Reader) (size : Nat) : Except Refusal Unit :=
  if r.limit > 0 && size > r.limit then .error (.tooLarge size r.limit) else .ok ()

theorem checkSize_eq_ok_iff {r : Reader} {size : Nat} :
    r.checkSize size = .ok () ↔ r.limit = 0 ∨ size ≤ r.limit := by
  unfold checkSize
  split
  · rename_i h
    simp only [gt_iff_lt, Bool.and_eq_true, decide_eq_true_eq] at h
    constructor
    · intro h'
      cases h'
    · omega
  · rename_i h
    simp only [gt_iff_lt, Bool.and_eq_true, decide_eq_true_eq] at h
    constructor
    · intro _
      omega
    · intro _
      rfl

def parse (r : Reader) (t : Text) : Except Refusal Tree := do
  r.checkSize t.size
  pure (.parse t)

@[simp] theorem parse_unlimited (t : Text) : unlimited.parse t = .ok (.parse t) := rfl

/-- The text of the bytes; their number is checked first. -/
def decode (r : Reader) (bytes : List UInt8) : Except Refusal Text := do
  r.checkSize bytes.length
  (Utf8.decode bytes).mapError .encoding

def parseBytes (r : Reader) (bytes : List UInt8) : Except Refusal Tree :=
  (r.decode bytes).map .parse

/-- The size a tree's text is to have after an edit, whether or not the edit fits the text. -/
def sizeAfter (t : Tree) (e : Edit) : Nat := t.size + e.replacement.size - e.span.length

def checkEdit (r : Reader) (t : Tree) (e : Edit) : Except Refusal Unit :=
  r.checkSize (sizeAfter t e)

/-- The tree of the edited text; the size of that text is checked first. -/
def edit (r : Reader) (t : Tree) (e : Edit) : Except Refusal Tree := do
  r.checkEdit t e
  (t.edit e).mapError .edit

end Reader

end BibStyle
