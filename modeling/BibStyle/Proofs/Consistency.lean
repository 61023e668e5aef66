import BibStyle.Proofs.Incremental

/-!
# Only what an edit leads to is parsed again

`reparse` is given the old text, the edit and the new text, and trusts none of them. It compares the
new text with the edited one in three stretches: before the replacement, the replacement, and behind
it. Where the new text can be cut into such stretches at all (`Edit.Seams`), that is the same as to
compare the two texts as wholes (`checkEdit_of_seams`).

`Tree.Objects` lists what may be wrong, each case only where none of those before it applies.
`reparse` succeeds if nothing is wrong, and otherwise names the case (`reparse_editAll_parse`).

A wrong text of the right size that cannot be cut so (`Tree.Incomparable`) is not rejected but makes
`reparse` break off, and nothing else does (`returns_editAll_parse`).
-/

namespace BibStyle

/-- Byte `i` is the first at which the two texts differ; a text that has ended differs from one that
goes on. -/
def Text.DifferAt (t u : Text) (i : Nat) : Prop :=
  t.bytes[i]? ≠ u.bytes[i]? ∧ ∀ j < i, t.bytes[j]? = u.bytes[j]?

/-- The new text can be cut where the replacement starts and where it ends. -/
structure Edit.Seams (e : Edit) (newText : Text) : Prop where
  start : newText.isBoundary e.span.start = true
  stop : newText.isBoundary e.insertedTo = true

namespace Tree

/-! ## Comparing byte by byte -/

theorem mismatch?_append {base : Nat} {a a' : Text} (b b' : Text) (h : a.size = a'.size) :
    mismatch? base (a ++ b) (a' ++ b') =
      (mismatch? base a a').or (mismatch? (base + a.size) b b') := by
  have hlength : a.bytes.length = a'.bytes.length := by simpa using h
  have hzip : (a.bytes.zip a'.bytes).length = a.size := by simp [h]
  unfold mismatch?
  rw [Text.bytes_append, Text.bytes_append, List.zip_append hlength, List.findIdx?_append, hzip]
  cases (a.bytes.zip a'.bytes).findIdx? fun p => p.1 != p.2 with
  | some i => rfl
  | none =>
      simp only [Option.none_or, Option.map_none, Option.map_map]
      congr 1
      funext i
      show base + (i + a.size) = base + a.size + i
      omega

/-- Two texts of one size that show no difference are equal. -/
theorem eq_of_mismatch?_eq_none {base : Nat} {t u : Text} (hs : t.size = u.size)
    (h : mismatch? base t u = none) : t = u := by
  rw [mismatch?, Option.map_eq_none_iff, List.findIdx?_eq_none_iff] at h
  apply Text.bytes_injective
  apply List.ext_getElem (by simpa using hs)
  intro i hi hi'
  have hmem : (t.bytes[i], u.bytes[i]) ∈ t.bytes.zip u.bytes := by
    rw [← List.getElem_zip (h := by simp at hi hi' ⊢; omega)]
    exact List.getElem_mem _
  simpa using h _ hmem

/-- The place that is found is the first at which the texts differ. -/
theorem mismatch?_eq_some_iff {t u : Text} (hs : t.size = u.size) {i : Nat} :
    mismatch? 0 t u = some i ↔ t.DifferAt u i := by
  have hlength : t.bytes.length = u.bytes.length := by simpa using hs
  rw [mismatch?, Option.map_eq_some_iff]
  simp only [Nat.zero_add, exists_eq_right]
  rw [List.findIdx?_eq_some_iff_getElem]
  constructor
  · rintro ⟨hi, hne, heq⟩
    rw [List.length_zip] at hi
    constructor
    · rw [List.getElem?_eq_getElem (by omega), List.getElem?_eq_getElem (by omega)]
      simpa using hne
    · intro j hj
      rw [List.getElem?_eq_getElem (by omega), List.getElem?_eq_getElem (by omega)]
      simpa using heq j hj
  · rintro ⟨hne, heq⟩
    have hi : i < t.bytes.length := by
      apply Nat.lt_of_not_le
      intro hle
      apply hne
      rw [List.getElem?_eq_none hle, List.getElem?_eq_none (hlength ▸ hle)]
    have hi' : i < u.bytes.length := hlength ▸ hi
    refine ⟨by rw [List.length_zip]; omega, ?_, ?_⟩
    · rw [List.getElem?_eq_getElem hi, List.getElem?_eq_getElem hi'] at hne
      simpa using hne
    · intro j hj
      have hj' := heq j hj
      rw [List.getElem?_eq_getElem (by omega), List.getElem?_eq_getElem (by omega)] at hj'
      simpa using hj'

end Tree

/-! ## What may be wrong -/

namespace Edit

variable {e : Edit} {t : Text}

theorem split_of_outside (h : e.span.stop < e.span.start ∨ t.size < e.span.stop) :
    e.split t = .error (.outOfBounds e.span t.size) := by
  unfold split
  exact if_pos (by simpa using h)

theorem split_of_start (hle : e.span.start ≤ e.span.stop) (hin : e.span.stop ≤ t.size)
    (h : t.isBoundary e.span.start = false) : e.split t = .error (.notBoundary e.span.start) := by
  have hcut : t.cut? e.span.start = none := by simpa [Text.isBoundary] using h
  unfold split
  rw [if_neg (by simp; omega), hcut]

theorem split_of_stop (hle : e.span.start ≤ e.span.stop) (hin : e.span.stop ≤ t.size)
    (hstart : t.isBoundary e.span.start = true) (h : t.isBoundary e.span.stop = false) :
    e.split t = .error (.notBoundary e.span.stop) := by
  obtain ⟨parts, hparts⟩ := Option.isSome_iff_exists.1 hstart
  have hcut : t.cut? e.span.stop = none := by simpa [Text.isBoundary] using h
  unfold split
  rw [if_neg (by simp; omega), hparts, hcut]

theorem exists_parts_of_apply {edited : Text} (h : e.apply t = .ok edited) :
    ∃ before removed after, e.Parts t before removed after ∧
      edited = before ++ e.replacement ++ after := by
  obtain ⟨before, removed, after, hparts⟩ := (valid_of_apply h).exists_parts
  refine ⟨before, removed, after, hparts, ?_⟩
  rw [hparts.apply] at h
  exact (Except.ok.inj h).symm

end Edit

namespace Tree

/-- What is wrong first with the old text, the edit and the new text that are given for the tree. -/
inductive Objects (t : Tree) (oldText : Text) (e : Edit) (newText : Text) : EditError → Prop where
  | stale (h : oldText ≠ t.text) : Objects t oldText e newText .staleText
  | outside (fresh : oldText = t.text)
      (h : e.span.stop < e.span.start ∨ oldText.size < e.span.stop) :
      Objects t oldText e newText (.outOfBounds e.span oldText.size)
  | start (fresh : oldText = t.text) (ordered : e.span.start ≤ e.span.stop)
      (inside : e.span.stop ≤ oldText.size) (h : oldText.isBoundary e.span.start = false) :
      Objects t oldText e newText (.notBoundary e.span.start)
  | stop (fresh : oldText = t.text) (ordered : e.span.start ≤ e.span.stop)
      (inside : e.span.stop ≤ oldText.size) (start : oldText.isBoundary e.span.start = true)
      (h : oldText.isBoundary e.span.stop = false) :
      Objects t oldText e newText (.notBoundary e.span.stop)
  | length {edited} (fresh : oldText = t.text) (apply : e.apply oldText = .ok edited)
      (h : newText.size ≠ edited.size) :
      Objects t oldText e newText (.lengthMismatch edited.size newText.size)
  | text {edited i} (fresh : oldText = t.text) (apply : e.apply oldText = .ok edited)
      (size : newText.size = edited.size) (h : edited.DifferAt newText i) :
      Objects t oldText e newText (.textMismatch i)

/-- Either nothing is wrong, or something is. -/
theorem consistent_or_objects (t : Tree) (oldText : Text) (e : Edit) (newText : Text) :
    (oldText = t.text ∧ e.Valid oldText ∧ e.apply oldText = .ok newText) ∨
      ∃ error, t.Objects oldText e newText error := by
  by_cases hstale : oldText ≠ t.text
  · exact .inr ⟨_, .stale hstale⟩
  have fresh : oldText = t.text := Decidable.not_not.1 hstale
  by_cases houtside : e.span.stop < e.span.start ∨ oldText.size < e.span.stop
  · exact .inr ⟨_, .outside fresh houtside⟩
  have ordered : e.span.start ≤ e.span.stop := by omega
  have inside : e.span.stop ≤ oldText.size := by omega
  cases hstart : oldText.isBoundary e.span.start with
  | false => exact .inr ⟨_, .start fresh ordered inside hstart⟩
  | true =>
      cases hstop : oldText.isBoundary e.span.stop with
      | false => exact .inr ⟨_, .stop fresh ordered inside hstart hstop⟩
      | true =>
          have hvalid : e.Valid oldText := ⟨ordered, inside, hstart, hstop⟩
          obtain ⟨before, removed, after, hparts⟩ := hvalid.exists_parts
          have happly := hparts.apply
          generalize before ++ e.replacement ++ after = edited at happly
          by_cases hsize : newText.size = edited.size
          · cases hmismatch : mismatch? 0 edited newText with
            | some i =>
                exact .inr ⟨_, .text fresh happly hsize ((mismatch?_eq_some_iff hsize.symm).1
                  hmismatch)⟩
            | none =>
                obtain rfl := eq_of_mismatch?_eq_none hsize.symm hmismatch
                exact .inl ⟨fresh, hvalid, happly⟩
          · exact .inr ⟨_, .length fresh happly hsize⟩

/-! ## What the check says -/

theorem checkEdit_of_split {t : Tree} {e : Edit} {error : EditError}
    (h : e.split t.text = .error error) (newText : Text) :
    t.checkEdit t.text e newText = .error (.edit error) := by
  rw [checkEdit, if_neg (not_not_intro rfl), h]

section Parts

variable {t : Tree} {e : Edit} {before removed after newText : Text}

theorem checkEdit_of_size_ne (h : e.Parts t.text before removed after)
    (hs : newText.size ≠ Text.size (before ++ e.replacement ++ after)) :
    t.checkEdit t.text e newText = .error (.edit (.lengthMismatch
      (Text.size (before ++ e.replacement ++ after)) newText.size)) := by
  rw [checkEdit, if_neg (not_not_intro rfl), h.split]
  simp only [h.newSize_eq]
  exact if_pos hs

/-- Comparing stretch by stretch is comparing the whole. -/
theorem checkEdit_of_seams (h : e.Parts t.text before removed after)
    (hs : newText.size = Text.size (before ++ e.replacement ++ after)) (hseams : e.Seams newText) :
    t.checkEdit t.text e newText =
      match mismatch? 0 (before ++ e.replacement ++ after) newText with
      | some offset => .error (.edit (.textMismatch offset))
      | none => .ok () := by
  obtain ⟨newBefore, rest, hnew, hstart⟩ := Text.isBoundary_iff.1 hseams.start
  obtain ⟨front, newAfter, hnew', hstop⟩ := Text.isBoundary_iff.1 hseams.stop
  obtain ⟨inserted, rfl, rfl⟩ := Text.exists_of_append_eq_append (hnew.symm.trans hnew')
    (by rw [hstart, hstop, Edit.insertedTo]; omega)
  subst hnew
  have hinserted : inserted.size = e.replacement.size := by
    rw [Text.size_append, Edit.insertedTo] at hstop
    omega
  have hcut : Text.cut? e.span.start (newBefore ++ (inserted ++ newAfter)) =
      some (newBefore, inserted ++ newAfter) := Text.cut?_eq_some_iff.2 ⟨rfl, hstart⟩
  have hcut' : Text.cut? e.replacement.size (inserted ++ newAfter) = some (inserted, newAfter) :=
    Text.cut?_eq_some_iff.2 ⟨rfl, hinserted⟩
  have hbefore : before.size = newBefore.size := h.start.trans hstart.symm
  rw [checkEdit, if_neg (not_not_intro rfl), h.split]
  simp only [h.newSize_eq, hs, ne_eq, not_true_eq_false, if_false, hcut, hcut']
  rw [List.append_assoc before, mismatch?_append _ _ hbefore,
    mismatch?_append _ _ hinserted.symm, Nat.zero_add, h.start]
  rfl

theorem checkEdit_of_not_seams (h : e.Parts t.text before removed after)
    (hs : newText.size = Text.size (before ++ e.replacement ++ after))
    (hseams : ¬e.Seams newText) : t.checkEdit t.text e newText = .error .noSeam := by
  rw [checkEdit, if_neg (not_not_intro rfl), h.split]
  simp only [h.newSize_eq, hs, ne_eq, not_true_eq_false, if_false]
  cases hcut : newText.cut? e.span.start with
  | none => rfl
  | some parts =>
      obtain ⟨newBefore, rest⟩ := parts
      obtain ⟨rfl, hstart⟩ := Text.cut?_eq_some_iff.1 hcut
      simp only
      cases hcut' : rest.cut? e.replacement.size with
      | none => rfl
      | some parts =>
          obtain ⟨inserted, newAfter⟩ := parts
          obtain ⟨rfl, hinserted⟩ := Text.cut?_eq_some_iff.1 hcut'
          refine absurd ⟨?_, ?_⟩ hseams
          · exact Text.isBoundary_iff.2 ⟨_, _, rfl, hstart⟩
          · refine Text.isBoundary_iff.2 ⟨newBefore ++ inserted, newAfter, by simp, ?_⟩
            rw [Text.size_append, hstart, hinserted, Edit.insertedTo]

end Parts

/-- Nothing is wrong with the old text, the edit and the size of the new text, but the new text has
a character across the place where the replacement starts or ends. -/
structure Incomparable (t : Tree) (oldText : Text) (e : Edit) (newText : Text) : Prop where
  fresh : oldText = t.text
  size : ∃ edited, e.apply oldText = .ok edited ∧ newText.size = edited.size
  seams : ¬e.Seams newText

section Comparable

variable {t : Tree} {oldText newText : Text} {e : Edit} {error : EditError}

theorem Incomparable.checkEdit (h : t.Incomparable oldText e newText) :
    t.checkEdit oldText e newText = .error .noSeam := by
  obtain ⟨fresh, ⟨edited, apply, size⟩, seams⟩ := h
  subst fresh
  obtain ⟨before, removed, after, hparts, rfl⟩ := Edit.exists_parts_of_apply apply
  exact checkEdit_of_not_seams hparts size seams

/-- What is wrong first is what the check says, where the new text can be compared. -/
theorem Objects.checkEdit_of_not_incomparable (h : t.Objects oldText e newText error)
    (hc : ¬t.Incomparable oldText e newText) :
    t.checkEdit oldText e newText = .error (.edit error) := by
  cases h with
  | stale h => exact if_pos (Ne.symm h)
  | outside fresh h =>
      subst fresh
      exact checkEdit_of_split (Edit.split_of_outside h) newText
  | start fresh ordered inside h =>
      subst fresh
      exact checkEdit_of_split (Edit.split_of_start ordered inside h) newText
  | stop fresh ordered inside start h =>
      subst fresh
      exact checkEdit_of_split (Edit.split_of_stop ordered inside start h) newText
  | length fresh apply h =>
      subst fresh
      obtain ⟨before, removed, after, hparts, rfl⟩ := Edit.exists_parts_of_apply apply
      exact checkEdit_of_size_ne hparts h
  | text fresh apply size h =>
      have hseams : e.Seams newText :=
        Classical.byContradiction fun hseams => hc ⟨fresh, ⟨_, apply, size⟩, hseams⟩
      subst fresh
      obtain ⟨before, removed, after, hparts, rfl⟩ := Edit.exists_parts_of_apply apply
      rw [checkEdit_of_seams hparts size hseams, (mismatch?_eq_some_iff size.symm).2 h]

theorem Objects.checkEdit (h : t.Objects oldText e newText error) :
    t.checkEdit oldText e newText = .error (.edit error) ∨
      t.checkEdit oldText e newText = .error .noSeam := by
  by_cases hc : t.Incomparable oldText e newText
  · exact .inr hc.checkEdit
  · exact .inl (h.checkEdit_of_not_incomparable hc)

end Comparable

theorem reparse_of_checkEdit_error {t : Tree} {oldText newText : Text} {e : Edit}
    {error : ReparseError} (h : t.checkEdit oldText e newText = .error error) :
    t.reparse oldText e newText = .error error := by
  rw [reparse, spliceChecked, h]
  rfl

/-- However a parse has been edited, and wherever `reparse` can compare the new text at all: it is
parsed again for just the text that a valid edit of its own text leads to, and gives the parse of
that text; otherwise the answer is what is wrong first. -/
theorem reparse_editAll_parse (s : Text) (es : List Edit) (t : Tree)
    (ht : t = (parse s).editAll es) (oldText : Text) (e : Edit) (newText : Text)
    (h : t.reparse oldText e newText ≠ .error .noSeam) :
    ((∃ u, t.reparse oldText e newText = .ok u) ↔
        oldText = t.text ∧ e.Valid oldText ∧ e.apply oldText = .ok newText) ∧
      (∀ error, t.reparse oldText e newText = .error (.edit error) ↔
        t.Objects oldText e newText error) ∧
      ∀ u, t.reparse oldText e newText = .ok u → u = parse newText := by
  obtain ⟨text, htext⟩ := editAll_parse s es
  rw [htext] at ht
  subst ht
  have hok : ∀ {oldText : Text}, oldText = text → e.apply oldText = .ok newText →
      (parse text).reparse oldText e newText = .ok (parse newText) := by
    rintro _ rfl happly
    obtain ⟨before, removed, after, hparts, rfl⟩ := Edit.exists_parts_of_apply happly
    exact reparse_of_parts hparts
  have hobjects : ∀ error, (parse text).Objects oldText e newText error →
      (parse text).reparse oldText e newText = .error (.edit error) := by
    intro error herror
    rcases herror.checkEdit with hcheck | hcheck
    · exact reparse_of_checkEdit_error hcheck
    · exact absurd (reparse_of_checkEdit_error hcheck) h
  rcases (parse text).consistent_or_objects oldText e newText with
    ⟨fresh, valid, happly⟩ | ⟨error, herror⟩
  · have hreparse := hok fresh happly
    refine ⟨⟨fun _ => ⟨fresh, valid, happly⟩, fun _ => ⟨_, hreparse⟩⟩, ?_, ?_⟩
    · intro error
      constructor
      · intro herror
        cases hreparse.symm.trans herror
      · intro herror
        cases hreparse.symm.trans (hobjects error herror)
    · intro u hu
      exact (Except.ok.inj (hreparse.symm.trans hu)).symm
  · have hreparse := hobjects error herror
    refine ⟨⟨?_, ?_⟩, ?_, ?_⟩
    · rintro ⟨u, hu⟩
      cases hreparse.symm.trans hu
    · rintro ⟨fresh, -, happly⟩
      cases hreparse.symm.trans (hok fresh happly)
    · intro error'
      refine ⟨?_, hobjects error'⟩
      intro herror'
      cases hreparse.symm.trans herror'
      exact herror
    · intro u hu
      cases hreparse.symm.trans hu

/-- A new text that goes wrong inside a character: the edit leads to `READ ü`. -/
theorem reparse_editAll_parse_umlaut :
    ∃ t, t = (parse "READ".toList).editAll [⟨⟨4, 4⟩, " é".toList⟩] ∧
      t.reparse "READ é".toList ⟨⟨5, 7⟩, "ü".toList⟩ "READ ö".toList ≠ .error .noSeam ∧
      t.Objects "READ é".toList ⟨⟨5, 7⟩, "ü".toList⟩ "READ ö".toList (.textMismatch 6) := by
  have hreparse : ((parse "READ".toList).editAll [⟨⟨4, 4⟩, " é".toList⟩]).reparse "READ é".toList
      ⟨⟨5, 7⟩, "ü".toList⟩ "READ ö".toList = .error (.edit (.textMismatch 6)) := by
    rfl
  have hreturns : ((parse "READ".toList).editAll [⟨⟨4, 4⟩, " é".toList⟩]).reparse "READ é".toList
      ⟨⟨5, 7⟩, "ü".toList⟩ "READ ö".toList ≠ .error .noSeam := by
    rw [hreparse]
    nofun
  exact ⟨_, rfl, hreturns, ((reparse_editAll_parse _ _ _ rfl _ _ _ hreturns).2.1 _).1 hreparse⟩

/-! ## New texts that cannot be compared -/

/-- What the edit leads to can be compared with itself. -/
theorem seams_of_apply {e : Edit} {t edited : Text} (h : e.apply t = .ok edited) :
    e.Seams edited := by
  obtain ⟨before, removed, after, hparts, rfl⟩ := Edit.exists_parts_of_apply h
  constructor
  · exact Text.isBoundary_iff.2 ⟨before, e.replacement ++ after, by simp, hparts.start⟩
  · refine Text.isBoundary_iff.2 ⟨before ++ e.replacement, after, rfl, ?_⟩
    rw [Text.size_append, hparts.start, Edit.insertedTo]

/-- Two texts of one size that are not the same differ somewhere first. -/
theorem exists_differAt {t u : Text} (hs : t.size = u.size) (h : t ≠ u) : ∃ i, t.DifferAt u i := by
  cases hmismatch : mismatch? 0 t u with
  | none => exact absurd (eq_of_mismatch?_eq_none hs hmismatch) h
  | some i => exact ⟨i, (mismatch?_eq_some_iff hs).1 hmismatch⟩

/-- A new text that cannot be compared is a wrong one. -/
theorem Incomparable.exists_objects {t : Tree} {oldText newText : Text} {e : Edit}
    (h : t.Incomparable oldText e newText) :
    ∃ i, t.Objects oldText e newText (.textMismatch i) := by
  obtain ⟨fresh, ⟨edited, apply, size⟩, seams⟩ := h
  have hne : edited ≠ newText := by
    rintro rfl
    exact seams (seams_of_apply apply)
  obtain ⟨i, hi⟩ := exists_differAt size.symm hne
  exact ⟨i, .text fresh apply size hi⟩

/-- However a parse has been edited, `reparse` gives a tree or an error of the edit, whatever it is
given, but for new texts of the right size that have a character across an end of the replacement:
it breaks off on just those, all of which are wrong ones. Every other wrong text of the right size
is rejected for the first byte that is wrong. -/
theorem returns_editAll_parse (s : Text) (es : List Edit) (t : Tree)
    (ht : t = (parse s).editAll es) (oldText : Text) (e : Edit) (newText : Text) :
    (t.Incomparable oldText e newText → t.reparse oldText e newText = .error .noSeam ∧
        ∃ i, t.Objects oldText e newText (.textMismatch i)) ∧
      (¬t.Incomparable oldText e newText →
        (∃ u, t.reparse oldText e newText = .ok u) ∨
          ∃ error, t.reparse oldText e newText = .error (.edit error)) ∧
      ∀ edited, oldText = t.text → e.apply oldText = .ok edited → newText.size = edited.size →
        newText ≠ edited → e.Seams newText →
          ∃ i, edited.DifferAt newText i ∧
            t.reparse oldText e newText = .error (.edit (.textMismatch i)) := by
  refine ⟨fun hc => ⟨reparse_of_checkEdit_error hc.checkEdit, hc.exists_objects⟩, ?_, ?_⟩
  · intro hc
    rcases t.consistent_or_objects oldText e newText with ⟨fresh, -, apply⟩ | ⟨error, herror⟩
    · obtain ⟨text, htext⟩ := editAll_parse s es
      rw [htext] at ht
      subst ht fresh
      obtain ⟨before, removed, after, hparts, rfl⟩ := Edit.exists_parts_of_apply apply
      exact .inl ⟨_, reparse_of_parts hparts⟩
    · exact .inr ⟨error, reparse_of_checkEdit_error (herror.checkEdit_of_not_incomparable hc)⟩
  · intro edited fresh apply size hne hseams
    obtain ⟨i, hi⟩ := exists_differAt size.symm hne.symm
    have hobjects : t.Objects oldText e newText (.textMismatch i) := .text fresh apply size hi
    have hcheck := hobjects.checkEdit_of_not_incomparable fun hc => hc.seams hseams
    exact ⟨i, hi, reparse_of_checkEdit_error hcheck⟩

/-- A new text that goes wrong before the replacement, inside a character: the edit leads to
`é ö`. -/
theorem returns_editAll_parse_umlaut :
    ∃ t, t = (parse "é".toList).editAll [⟨⟨2, 2⟩, " ü".toList⟩] ∧
      (⟨⟨3, 5⟩, "ö".toList⟩ : Edit).apply t.text = .ok "é ö".toList ∧
      (⟨⟨3, 5⟩, "ö".toList⟩ : Edit).Seams "ä ö".toList ∧
      ∃ i, Text.DifferAt "é ö".toList "ä ö".toList i ∧
        t.reparse t.text ⟨⟨3, 5⟩, "ö".toList⟩ "ä ö".toList = .error (.edit (.textMismatch i)) := by
  have happly : (⟨⟨3, 5⟩, "ö".toList⟩ : Edit).apply
      ((parse "é".toList).editAll [⟨⟨2, 2⟩, " ü".toList⟩]).text = .ok "é ö".toList := by
    rfl
  have hseams : (⟨⟨3, 5⟩, "ö".toList⟩ : Edit).Seams "ä ö".toList := ⟨by decide, by decide⟩
  exact ⟨_, rfl, happly, hseams, (returns_editAll_parse _ _ _ rfl _ _ _).2.2 _ rfl happly
    (by decide) (by decide) hseams⟩

/-- The edit leads to `acb`, which has as many bytes as `éb` and differs from it at once; but `éb`
cannot be cut behind its first byte, and neither a tree nor an error of the edit comes of it. -/
theorem not_returns_across_character :
    (parse "ab".toList).Objects "ab".toList ⟨⟨1, 1⟩, "c".toList⟩ "éb".toList (.textMismatch 0) ∧
      ¬((∃ u, (parse "ab".toList).reparse "ab".toList ⟨⟨1, 1⟩, "c".toList⟩ "éb".toList = .ok u) ∨
        ∃ error, (parse "ab".toList).reparse "ab".toList ⟨⟨1, 1⟩, "c".toList⟩ "éb".toList =
          .error (.edit error)) := by
  have hreparse : (parse "ab".toList).reparse "ab".toList ⟨⟨1, 1⟩, "c".toList⟩ "éb".toList =
      .error .noSeam := rfl
  have happly : (⟨⟨1, 1⟩, "c".toList⟩ : Edit).apply "ab".toList = .ok "acb".toList := rfl
  constructor
  · exact .text rfl happly (by decide) ⟨by decide, fun j hj => absurd hj (Nat.not_lt_zero j)⟩
  · rw [hreparse]
    rintro (⟨u, hu⟩ | ⟨error, herror⟩)
    · cases hu
    · cases herror

end Tree

end BibStyle
