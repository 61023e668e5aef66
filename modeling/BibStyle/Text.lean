/-! # Text measured in bytes

Every offset of the library counts the bytes of the text in UTF-8. A text is kept as its list of
characters, so a cut can only be made between two of them.
-/

namespace BibStyle

abbrev Text := List Char

/-- The bytes from `start` up to, and not including, `stop`. -/
structure Span where
  start : Nat
  stop : Nat
deriving DecidableEq, Repr

namespace Span

def length (s : Span) : Nat := s.stop - s.start

/-- The form `3..7`. -/
def render (s : Span) : String := s!"{s.start}..{s.stop}"

end Span

namespace Text

/-- The number of bytes of the text. -/
def size (t : Text) : Nat := t.foldl (fun n c => n + c.utf8Size) 0

theorem foldl_utf8Size (t : Text) (n : Nat) :
    t.foldl (fun n c => n + c.utf8Size) n = n + size t := by
  unfold size
  induction t generalizing n with
  | nil => rfl
  | cons c t ih =>
      simp only [List.foldl_cons, Nat.zero_add]
      rw [ih, ih c.utf8Size, Nat.add_assoc]

@[simp] theorem size_nil : size [] = 0 := rfl

@[simp] theorem size_cons (c : Char) (t : Text) : size (c :: t) = c.utf8Size + size t := by
  rw [size, List.foldl_cons, Nat.zero_add, foldl_utf8Size]

@[simp] theorem size_append (t u : Text) : size (t ++ u) = size t + size u := by
  simp only [size, List.foldl_append]
  exact foldl_utf8Size u _

theorem size_reverse (t : Text) : size t.reverse = size t := by
  induction t with
  | nil => rfl
  | cons c t ih => simp [ih, Nat.add_comm]

theorem length_le_size (t : Text) : t.length ≤ size t := by
  induction t with
  | nil => exact Nat.le_refl _
  | cons c t ih =>
      have := c.utf8Size_pos
      simp only [List.length_cons, size_cons]
      omega

/-- The bytes of the text in UTF-8. -/
def bytes (t : Text) : List UInt8 := t.flatMap String.utf8EncodeChar

@[simp] theorem bytes_nil : bytes [] = [] := rfl

@[simp] theorem bytes_append (t u : Text) : bytes (t ++ u) = bytes t ++ bytes u :=
  List.flatMap_append

@[simp] theorem length_bytes (t : Text) : (bytes t).length = size t := by
  induction t with
  | nil => rfl
  | cons c t ih =>
      have : bytes (c :: t) = String.utf8EncodeChar c ++ bytes t := rfl
      simp [this, ih]

/-- Walks `n` bytes into the text; `seen` holds the characters passed, last first. -/
def cutFrom (seen : Text) : Nat → Text → Option (Text × Text)
  | 0, t => some (seen.reverse, t)
  | _ + 1, [] => none
  | n + 1, c :: t =>
      if c.utf8Size ≤ n + 1 then cutFrom (c :: seen) (n + 1 - c.utf8Size) t else none

/-- The text before and after byte `n`; nothing when `n` lies past the end or inside a
character. -/
def cut? (n : Nat) (t : Text) : Option (Text × Text) := cutFrom [] n t

/-- Byte `n` lies between two characters of the text, or at one of its ends. -/
def isBoundary (n : Nat) (t : Text) : Bool := (cut? n t).isSome

theorem cutFrom_eq_some {seen : Text} {n : Nat} {t before after : Text}
    (h : cutFrom seen n t = some (before, after)) :
    before ++ after = seen.reverse ++ t ∧ size before = size seen + n := by
  induction t generalizing seen n with
  | nil =>
      cases n with
      | zero =>
          simp only [cutFrom, Option.some.injEq, Prod.mk.injEq] at h
          obtain ⟨rfl, rfl⟩ := h
          exact ⟨rfl, by simp [size_reverse]⟩
      | succ n => simp [cutFrom] at h
  | cons c t ih =>
      cases n with
      | zero =>
          simp only [cutFrom, Option.some.injEq, Prod.mk.injEq] at h
          obtain ⟨rfl, rfl⟩ := h
          exact ⟨rfl, by simp [size_reverse]⟩
      | succ n =>
          simp only [cutFrom] at h
          split at h
          · obtain ⟨h₁, h₂⟩ := ih h
            refine ⟨by simpa using h₁, ?_⟩
            simp only [size_cons] at h₂
            omega
          · simp at h

/-- A cut loses nothing and is made at the byte asked for. -/
theorem append_of_cut? {n : Nat} {t before after : Text} (h : cut? n t = some (before, after)) :
    before ++ after = t ∧ size before = n := by
  simpa using cutFrom_eq_some h

end Text

end BibStyle
