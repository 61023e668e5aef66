import BibStyle.Edit

/-!
# Cuts and sizes

A cut at byte `n` is the same as a way to write the text as `before ++ after` with `before` of `n`
bytes, and there is at most one. Every offset of a tree or an edit becomes such a way of writing
the text, and from there on only lists are left.
-/

namespace BibStyle

namespace Text

theorem size_pos {t : Text} (h : t ≠ []) : 0 < size t :=
  Nat.lt_of_lt_of_le (List.length_pos_iff.2 h) (length_le_size t)

theorem size_eq_zero {t : Text} : size t = 0 ↔ t = [] := by
  constructor
  · intro h
    have := length_le_size t
    exact List.length_eq_zero_iff.1 (by omega)
  · rintro rfl
    rfl

theorem cutFrom_size (seen a b : Text) :
    cutFrom seen (size a) (a ++ b) = some (seen.reverse ++ a, b) := by
  induction a generalizing seen with
  | nil => simp [cutFrom]
  | cons c a ih =>
      have hc := c.utf8Size_pos
      obtain ⟨n, hn⟩ : ∃ n, size (c :: a) = n + 1 := ⟨size (c :: a) - 1, by simp; omega⟩
      have hle : c.utf8Size ≤ n + 1 := by simp at hn; omega
      have hsub : n + 1 - c.utf8Size = size a := by simp at hn; omega
      rw [hn, List.cons_append, cutFrom, if_pos hle, hsub, ih]
      simp

@[simp] theorem cut?_size_append (a b : Text) : cut? (size a) (a ++ b) = some (a, b) := by
  rw [cut?, cutFrom_size]
  rfl

/-- A cut at byte `n` is a way to write the text with `n` bytes in front. -/
theorem cut?_eq_some_iff {n : Nat} {t a b : Text} :
    cut? n t = some (a, b) ↔ t = a ++ b ∧ size a = n := by
  constructor
  · intro h
    obtain ⟨h₁, h₂⟩ := append_of_cut? h
    exact ⟨h₁.symm, h₂⟩
  · rintro ⟨rfl, rfl⟩
    exact cut?_size_append a b

theorem isBoundary_iff {n : Nat} {t : Text} :
    isBoundary n t = true ↔ ∃ a b, t = a ++ b ∧ size a = n := by
  rw [isBoundary, Option.isSome_iff_exists]
  constructor
  · rintro ⟨⟨a, b⟩, h⟩
    exact ⟨a, b, cut?_eq_some_iff.1 h⟩
  · rintro ⟨a, b, h⟩
    exact ⟨(a, b), cut?_eq_some_iff.2 h⟩

/-- Two ways to write a text with the same number of bytes in front are the same. -/
theorem append_inj_of_size {a b c d : Text} (h : a ++ b = c ++ d) (hs : size a = size c) :
    a = c ∧ b = d := by
  have h₁ : cut? (size a) (a ++ b) = some (a, b) := cut?_size_append a b
  rw [h, hs, cut?_size_append] at h₁
  simp only [Option.some.injEq, Prod.mk.injEq] at h₁
  exact ⟨h₁.1.symm, h₁.2.symm⟩

/-- Of two ways to write a text, the one with fewer bytes in front splits the front of the
other. -/
theorem exists_of_append_eq_append {a b c d : Text} (h : a ++ b = c ++ d)
    (hs : size a ≤ size c) : ∃ x, c = a ++ x ∧ b = x ++ d := by
  rcases List.append_eq_append_iff.1 h with ⟨x, rfl, rfl⟩ | ⟨x, rfl, rfl⟩
  · exact ⟨x, rfl, rfl⟩
  · have hx : x = [] := size_eq_zero.1 (by simp at hs; omega)
    subst hx
    exact ⟨[], by simp, by simp⟩

/-- Texts with the same bytes are the same. -/
theorem bytes_injective {t u : Text} (h : t.bytes = u.bytes) : t = u := by
  have henc : t.utf8Encode = u.utf8Encode := congrArg List.toByteArray h
  rw [← String.toByteArray_ofList, ← String.toByteArray_ofList, String.toByteArray_inj,
    String.ofList_inj] at henc
  exact henc

/-- The text has no line that goes on behind it. -/
def EndsLine (t : Text) : Prop := t = [] ∨ t.getLast? = some '\n'

theorem EndsLine.of_append {t u : Text} (h : EndsLine (t ++ u)) : EndsLine u := by
  rcases h with h | h
  · exact .inl (List.append_eq_nil_iff.1 h).2
  · rcases u with - | ⟨c, u⟩
    · exact .inl rfl
    · rw [List.getLast?_append, List.getLast?_cons, Option.some_or] at h
      exact .inr (List.getLast?_cons.trans h)

/-- What there is to read from byte `n` on: nothing past the end or inside a character. -/
def after (n : Nat) (t : Text) : Text := ((t.cut? n).map Prod.snd).getD []

theorem size_after_le (n : Nat) (t : Text) : (t.after n).size ≤ t.size - n := by
  unfold after
  cases h : t.cut? n with
  | none => simp
  | some parts =>
      obtain ⟨rfl, rfl⟩ := append_of_cut? h
      simp

end Text

end BibStyle
