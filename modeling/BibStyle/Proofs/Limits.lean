import BibStyle.Revision
import BibStyle.Proofs.Consistency
import Mathlib.Algebra.Order.Ring.Nat

/-!
# Limits on edited texts

A reader with a limit works out the size of an edited text before it looks whether the edit fits the
text at all. Where it fits, that is the size of the text the edit leads to (`sizeAfter_of_parts`),
so an edit has the outcome of reading that text (`edit_of_apply`). Where it does not fit, the number
means nothing, but whatever comes of it is a refusal (`edit_of_not_valid`).

The number is worked out in machine words, in which it does not overflow (`toNat_wordSizeAfter`).
-/

namespace BibStyle

theorem Tree.edit_of_apply_error {t : Tree} {e : Edit} {error : EditError}
    (h : e.apply t.text = .error error) : t.edit e = .error (.edit error) := by
  rw [edit, h]
  rfl

namespace Reader

variable {r : Reader} {t : Tree} {e : Edit}

theorem checkSize_of_tooLarge {size : Nat} (hlimit : 0 < r.limit) (h : r.limit < size) :
    r.checkSize size = .error (.tooLarge size r.limit) := by
  unfold checkSize
  exact if_pos (by simp [hlimit, h])

theorem checkSize_cases (r : Reader) (size : Nat) :
    (0 < r.limit ∧ r.limit < size ∧ r.checkSize size = .error (.tooLarge size r.limit)) ∨
      ((r.limit = 0 ∨ size ≤ r.limit) ∧ r.checkSize size = .ok ()) := by
  by_cases h : r.limit = 0 ∨ size ≤ r.limit
  · exact .inr ⟨h, checkSize_eq_ok_iff.2 h⟩
  · have hlimit : 0 < r.limit := by omega
    have hsize : r.limit < size := by omega
    exact .inl ⟨hlimit, hsize, checkSize_of_tooLarge hlimit hsize⟩

theorem parse_of_tooLarge {u : Text} (hlimit : 0 < r.limit) (h : r.limit < u.size) :
    r.parse u = .error (.tooLarge u.size r.limit) := by
  rw [parse, checkSize_of_tooLarge hlimit h]
  rfl

theorem parse_of_fits {u : Text} (h : r.limit = 0 ∨ u.size ≤ r.limit) :
    r.parse u = .ok (.parse u) := by
  rw [parse, checkSize_eq_ok_iff.2 h]
  rfl

/-! ## The size of the edited text -/

/-- For an edit that fits the text, the number is the size of the text it leads to. -/
theorem sizeAfter_of_parts {before removed after : Text}
    (h : e.Parts t.text before removed after) :
    sizeAfter t e = Text.size (before ++ e.replacement ++ after) := by
  rw [sizeAfter, Tree.size, h.text, Span.length, ← h.start, ← h.stop]
  simp only [Text.size_append]
  omega

/-- Subtraction that stops at zero. -/
def monus (a b : UInt64) : UInt64 := if b ≤ a then a - b else 0

/-- The number as it is worked out in words, from the sizes of the text and of the replacement and
from the bounds of the edit. -/
def wordSizeAfter (size inserted start stop : UInt64) : UInt64 :=
  monus (size + inserted) (monus stop start)

theorem toNat_monus (a b : UInt64) : (monus a b).toNat = a.toNat - b.toNat := by
  unfold monus
  split
  · rename_i h
    exact UInt64.toNat_sub_of_le _ _ h
  · rename_i h
    rw [UInt64.le_iff_toNat_le] at h
    have hzero : (0 : UInt64).toNat = 0 := rfl
    omega

/-- No text takes up half of all addresses, so the sum of two sizes is a word. The bounds of the
edit may be any words. -/
theorem toNat_wordSizeAfter (t : Tree) (e : Edit) (ht : t.size < 2 ^ 63)
    (he : e.replacement.size < 2 ^ 63) (hstart : e.span.start < 2 ^ 64)
    (hstop : e.span.stop < 2 ^ 64) :
    (wordSizeAfter (.ofNat t.size) (.ofNat e.replacement.size) (.ofNat e.span.start)
      (.ofNat e.span.stop)).toNat = sizeAfter t e := by
  have htext : (UInt64.ofNat t.size).toNat = t.size :=
    UInt64.toNat_ofNat_of_lt' (Nat.lt_trans ht (by decide))
  have hinserted : (UInt64.ofNat e.replacement.size).toNat = e.replacement.size :=
    UInt64.toNat_ofNat_of_lt' (Nat.lt_trans he (by decide))
  have hsum : (UInt64.ofNat t.size + UInt64.ofNat e.replacement.size).toNat =
      t.size + e.replacement.size := by
    rw [UInt64.toNat_add, htext, hinserted]
    exact Nat.mod_eq_of_lt (by omega)
  rw [wordSizeAfter, toNat_monus, toNat_monus, hsum, UInt64.toNat_ofNat_of_lt' hstop,
    UInt64.toNat_ofNat_of_lt' hstart, sizeAfter, Span.length]

/-! ## Outcomes -/

/-- An edit that fits has the outcome of reading the edited text. -/
theorem edit_of_apply {s u : Text} (h : e.apply s = .ok u) : r.edit (.parse s) e = r.parse u := by
  obtain ⟨before, removed, after, hparts, rfl⟩ := Edit.exists_parts_of_apply h
  rw [edit, checkEdit, sizeAfter_of_parts (t := .parse s) hparts, parse, Tree.edit_of_parts hparts]
  rfl

theorem edit_of_not_valid (r : Reader) (h : ¬e.Valid t.text) :
    r.edit t e = .error (.tooLarge (sizeAfter t e) r.limit) ∨
      ∃ error, e.apply t.text = .error error ∧ r.edit t e = .error (.edit (.edit error)) := by
  rw [edit, checkEdit]
  rcases r.checkSize_cases (sizeAfter t e) with ⟨-, -, hcheck⟩ | ⟨-, hcheck⟩
  · exact .inl (by rw [hcheck]; rfl)
  · cases happly : e.apply t.text with
    | ok u => exact absurd (Edit.valid_of_apply happly) h
    | error error =>
        refine .inr ⟨error, rfl, ?_⟩
        rw [hcheck, Tree.edit_of_apply_error happly]
        rfl

/-- Stamps do not change what an edit comes to. -/
theorem map_tree_editWithin (v : Revision) (r : Reader) (e : Edit) :
    (v.editWithin r e).map Revision.tree = r.edit v.tree e := by
  have hreparse : ∀ u, (v.reparse v.tree.text e u).map Revision.tree =
      v.tree.reparse v.tree.text e u := v.map_tree_reparse v.tree.text e
  rw [Revision.editWithin, edit, Revision.edit, Tree.edit]
  cases r.checkEdit v.tree e with
  | error refusal => rfl
  | ok =>
      cases e.apply v.tree.text with
      | error error => rfl
      | ok u =>
          have hu := hreparse u
          simp only [Except.mapError, bind, Except.bind]
          rw [← hu]
          cases v.reparse v.tree.text e u <;> rfl

/-- A limit means the same for the edits of the tree as for whole texts. -/
structure Uniform (r : Reader) (t : Tree) : Prop where
  /-- A valid edit has the outcome of reading the text it leads to. -/
  valid : ∀ e : Edit, e.Valid t.text → ∃ u, e.apply t.text = .ok u ∧ r.edit t e = r.parse u
  /-- That text is refused if it is larger than a limit that is set. -/
  tooLarge : ∀ (e : Edit) (u : Text), e.apply t.text = .ok u → 0 < r.limit → r.limit < u.size →
    r.edit t e = .error (.tooLarge u.size r.limit)
  /-- Otherwise it is parsed. -/
  fits : ∀ (e : Edit) (u : Text), e.apply t.text = .ok u → r.limit = 0 ∨ u.size ≤ r.limit →
    r.edit t e = .ok (.parse u)
  /-- An edit that is not valid is refused, for its size or for what is wrong with it. -/
  invalid : ∀ e : Edit, ¬e.Valid t.text →
    r.edit t e = .error (.tooLarge (sizeAfter t e) r.limit) ∨
      ∃ error, e.apply t.text = .error error ∧ r.edit t e = .error (.edit (.edit error))
  /-- The size is worked out without overflow, whatever words bound the edit. -/
  words : ∀ e : Edit, t.size < 2 ^ 63 → e.replacement.size < 2 ^ 63 → e.span.start < 2 ^ 64 →
    e.span.stop < 2 ^ 64 →
      (wordSizeAfter (.ofNat t.size) (.ofNat e.replacement.size) (.ofNat e.span.start)
        (.ofNat e.span.stop)).toNat = sizeAfter t e
  /-- Revisions of the tree are edited under the same limit. -/
  revision : ∀ (v : Revision) (e : Edit), v.tree = t →
    (v.editWithin r e).map Revision.tree = r.edit t e

/-- However a parse has been edited, a reader takes the edits of it for which it takes the edited
text, and no others. -/
theorem uniform_editAll_parse (r : Reader) (s : Text) (es : List Edit) :
    r.Uniform ((Tree.parse s).editAll es) := by
  obtain ⟨text, htext⟩ := Tree.editAll_parse s es
  rw [htext]
  refine ⟨?_, ?_, ?_, ?_, ?_, ?_⟩
  · intro e hvalid
    obtain ⟨before, removed, after, hparts⟩ := hvalid.exists_parts
    exact ⟨_, hparts.apply, edit_of_apply hparts.apply⟩
  · intro e u happly hlimit hsize
    exact (edit_of_apply happly).trans (parse_of_tooLarge hlimit hsize)
  · intro e u happly hfits
    exact (edit_of_apply happly).trans (parse_of_fits hfits)
  · exact fun e hvalid => r.edit_of_not_valid hvalid
  · exact fun e => toNat_wordSizeAfter _ e
  · intro v e hv
    rw [← hv]
    exact map_tree_editWithin v r e

end Reader

end BibStyle
