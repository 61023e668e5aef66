import BibStyle.Kind
import BibStyle.Text

/-! # Tokens -/

namespace BibStyle

/-- The set of tokens in force: between the braces of a macro's pattern a slash is part of a word,
and angle brackets, colons, ampersands and most other characters are strays. -/
inductive Mode where
  | normal
  | pattern
deriving DecidableEq, Repr

namespace Mode

def all : List Mode := [.normal, .pattern]

def tag : Mode → String
  | .normal => "normal"
  | .pattern => "macro"

def ofTag? (t : String) : Option Mode := all.find? fun m => m.tag == t

end Mode

structure Token where
  kind : TokenKind
  text : Text
deriving DecidableEq, Repr

namespace Token

def size (t : Token) : Nat := t.text.size

/-- The tokens with the spans they cover when the first starts at byte `pos`. -/
def place : Nat → List Token → List (Span × Token)
  | _, [] => []
  | pos, t :: ts => (⟨pos, pos + t.size⟩, t) :: place (pos + t.size) ts

@[simp] theorem place_nil (pos : Nat) : place pos [] = [] := rfl

@[simp] theorem place_cons (pos : Nat) (t : Token) (ts : List Token) :
    place pos (t :: ts) = (⟨pos, pos + t.size⟩, t) :: place (pos + t.size) ts := rfl

/-- Placing tokens neither drops nor reorders them. -/
@[simp] theorem map_snd_place (pos : Nat) (ts : List Token) :
    (place pos ts).map Prod.snd = ts := by
  induction ts generalizing pos with
  | nil => rfl
  | cons t ts ih => simp [ih]

end Token

end BibStyle
