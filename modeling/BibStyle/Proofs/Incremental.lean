import BibStyle.Proofs.Places
import BibStyle.Proofs.Restart
import BibStyle.Reparse

/-!
# Parsing again is parsing

The tree of an edited text is put together from segments kept at the front, segments parsed anew and
segments taken over from the old tree. All three are what a parse of the new text has at their
place: those kept end before the edit, in a complete statement (`segments_parse_kept`); those parsed
anew are a run from there that may stop at a statement; and those taken over are the parse of the
text behind the edit (`parse_eq_drop_of_resumeAt`). So editing a parse gives a parse, and keeps
doing so over any number of edits (`editAll_parse`).
-/

namespace BibStyle

namespace Tree

/-! ## Offsets of segments -/

theorem getElem?_offsetsFrom (pos : Nat) (segs : List Segment) (i : Nat) :
    (offsetsFrom pos segs)[i]? =
      segs[i]?.map fun _ => pos + Node.sizeAll ((segs.take i).map (·.node)) := by
  induction segs generalizing pos i with
  | nil => simp
  | cons s segs ih =>
      cases i with
      | zero => simp
      | succ i => simp [ih, Segment.size, Nat.add_assoc]

theorem countP_offsetsFrom_of_le {pos start : Nat} (segs : List Segment) (h : start ≤ pos) :
    (offsetsFrom pos segs).countP (· < start) = 0 := by
  induction segs generalizing pos with
  | nil => rfl
  | cons s segs ih =>
      rw [offsetsFrom_cons, List.countP_cons_of_neg (by simpa using h)]
      exact ih (by omega)

/-- The segments counted before a byte start before it. -/
theorem lt_of_lt_countP_offsetsFrom {pos start i : Nat} {segs : List Segment}
    (h : i < (offsetsFrom pos segs).countP (· < start)) :
    pos + Node.sizeAll ((segs.take i).map (·.node)) < start := by
  induction segs generalizing pos i with
  | nil => simp at h
  | cons s segs ih =>
      by_cases hpos : pos < start
      · cases i with
        | zero => simpa using hpos
        | succ i =>
            rw [offsetsFrom_cons, List.countP_cons_of_pos (by simpa using hpos)] at h
            have := ih (Nat.lt_of_succ_lt_succ h)
            simpa [Segment.size, Nat.add_assoc] using this
      · rw [countP_offsetsFrom_of_le _ (Nat.le_of_not_lt hpos)] at h
        exact absurd h (Nat.not_lt_zero i)

/-- What is left of a list when its end is cut off up to an element ends in that element. -/
theorem getElem?_of_length_dropWhile {α : Type} {p : α → Bool} {xs : List α} {m k : Nat}
    (h : ((xs.take m).reverse.dropWhile p).length = k + 1) :
    k < m ∧ ∃ x, xs[k]? = some x ∧ p x = false := by
  obtain ⟨x, ys, hys⟩ := List.exists_cons_of_length_eq_add_one h
  have hsplit := List.takeWhile_append_dropWhile (p := p) (l := (xs.take m).reverse)
  rw [hys] at hsplit h
  have htake : xs.take m = ys.reverse ++ x :: ((xs.take m).reverse.takeWhile p).reverse := by
    have := congrArg List.reverse hsplit
    simpa using this.symm
  have hlen : ys.length = k := by simpa using h
  have hget : (xs.take m)[k]? = some x := by
    rw [htake, List.getElem?_append_right (by simp [hlen])]
    simp [hlen]
  have hlt : k < m := by
    have := (List.getElem?_eq_some_iff.1 hget).1
    rw [List.length_take] at this
    omega
  refine ⟨hlt, x, ?_, ?_⟩
  · rwa [List.getElem?_take_of_lt hlt] at hget
  · have := List.head?_dropWhile_not p (xs.take m).reverse
    rw [hys] at this
    exact this

/-- The last segment that an edit leaves untouched is a complete statement, and the edit does not
touch the one behind it. -/
theorem keptBefore_cases (t : Tree) (start : Nat) :
    t.keptBefore start = 0 ∨ ∃ k g, t.keptBefore start = k + 1 ∧ t.segments[k]? = some g ∧
      g.isCompleteStatement = true ∧
      Node.sizeAll ((t.segments.take (k + 1)).map (·.node)) < start := by
  cases hkept : t.keptBefore start with
  | zero => exact .inl rfl
  | succ k =>
      obtain ⟨hlt, g, hg, hc⟩ := getElem?_of_length_dropWhile hkept
      refine .inr ⟨k, g, rfl, hg, by simpa using hc, ?_⟩
      have hcount : k + 1 < (offsetsFrom 0 t.segments).countP (· < start) := by
        rw [offsets] at hlt
        omega
      simpa using lt_of_lt_countP_offsetsFrom hcount

theorem statementAt?_eq_some {t : Tree} {offset i : Nat} (h : t.statementAt? offset = some i) :
    ∃ g, t.segments[i]? = some g ∧ g.isStatement = true ∧
      Node.sizeAll ((t.segments.take i).map (·.node)) = offset := by
  obtain ⟨hi, hp, -⟩ := List.findIdx?_eq_some_iff_getElem.1 h
  have hget := List.getElem?_eq_getElem hi
  rw [List.getElem?_zip_eq_some] at hget
  obtain ⟨ho, hg⟩ := hget
  rw [Bool.and_eq_true, beq_iff_eq] at hp
  refine ⟨_, hg, hp.2, ?_⟩
  have ho : (offsetsFrom 0 t.segments)[i]? = _ := ho
  rw [getElem?_offsetsFrom, hg, Option.map_some, Option.some.injEq, hp.1] at ho
  simpa using ho

end Tree

/-! ## Edits that can be made -/

/-- The edit replaces a stretch of the text between two of its characters. -/
structure Edit.Valid (e : Edit) (t : Text) : Prop where
  ordered : e.span.start ≤ e.span.stop
  inside : e.span.stop ≤ t.size
  start : t.isBoundary e.span.start = true
  stop : t.isBoundary e.span.stop = true

instance (e : Edit) (t : Text) : Decidable (e.Valid t) :=
  decidable_of_iff (e.span.start ≤ e.span.stop ∧ e.span.stop ≤ t.size ∧
    t.isBoundary e.span.start = true ∧ t.isBoundary e.span.stop = true)
    ⟨fun ⟨h₁, h₂, h₃, h₄⟩ => ⟨h₁, h₂, h₃, h₄⟩, fun ⟨h₁, h₂, h₃, h₄⟩ => ⟨h₁, h₂, h₃, h₄⟩⟩

/-- The text is `before`, what the edit replaces, and `after`. -/
structure Edit.Parts (e : Edit) (t before removed after : Text) : Prop where
  text : t = before ++ removed ++ after
  start : before.size = e.span.start
  stop : before.size + removed.size = e.span.stop

namespace Edit

variable {e : Edit} {t before removed after : Text}

theorem Valid.exists_parts (h : e.Valid t) :
    ∃ before removed after, e.Parts t before removed after := by
  obtain ⟨before, tail, ht, hstart⟩ := Text.isBoundary_iff.1 h.start
  obtain ⟨front, after, ht', hstop⟩ := Text.isBoundary_iff.1 h.stop
  have hle : before.size ≤ front.size := by
    rw [hstart, hstop]
    exact h.ordered
  obtain ⟨removed, rfl, rfl⟩ := Text.exists_of_append_eq_append (ht.symm.trans ht') hle
  exact ⟨before, removed, after, ht', hstart, by simpa using hstop⟩

namespace Parts

theorem split (h : e.Parts t before removed after) : e.split t = .ok (before, after) := by
  obtain ⟨rfl, hstart, hstop⟩ := h
  have hcut : Text.cut? e.span.start (before ++ removed ++ after) =
      some (before, removed ++ after) := by
    rw [← hstart, List.append_assoc]
    exact Text.cut?_size_append _ _
  have hcut' : Text.cut? e.span.stop (before ++ removed ++ after) =
      some (before ++ removed, after) := by
    rw [← hstop, ← Text.size_append]
    exact Text.cut?_size_append _ _
  have hin : ¬(decide (e.span.start > e.span.stop) ||
      decide (e.span.stop > Text.size (before ++ removed ++ after))) = true := by
    simp only [Text.size_append, Bool.or_eq_true, decide_eq_true_eq]
    omega
  rw [Edit.split, if_neg hin, hcut, hcut']

theorem apply (h : e.Parts t before removed after) :
    e.apply t = .ok (before ++ e.replacement ++ after) :=
  apply_eq_ok_iff.2 ⟨before, after, h.split, rfl⟩

theorem newSize_eq (h : e.Parts t before removed after) :
    e.newSize t.size = Text.size (before ++ e.replacement ++ after) := by
  simp only [Edit.newSize, Span.length, h.text, Text.size_append, ← h.start, ← h.stop]
  omega

end Parts

/-- Only what a text has between two of its characters can be replaced. -/
theorem valid_of_apply {u : Text} (h : e.apply t = .ok u) : e.Valid t := by
  obtain ⟨before, after, hsplit, -⟩ := apply_eq_ok_iff.1 h
  rw [Edit.split] at hsplit
  split at hsplit
  · cases hsplit
  · rename_i hin
    simp only [Bool.or_eq_true, decide_eq_true_eq] at hin
    split at hsplit
    · cases hsplit
    · cases hsplit
    · rename_i hstart hstop
      refine ⟨by omega, by omega, ?_, ?_⟩
      · rw [Text.isBoundary, hstart]
        rfl
      · rw [Text.isBoundary, hstop]
        rfl

end Edit

namespace Tree

theorem mismatch?_self (base : Nat) (t : Text) : mismatch? base t t = none := by
  rw [mismatch?, Option.map_eq_none_iff]
  induction t.bytes with
  | nil => rfl
  | cons b bs ih =>
      rw [List.zip_cons_cons, List.findIdx?_cons, ih]
      simp

/-- The text after an edit is accepted as the new text. -/
theorem checkEdit_of_parts {t : Tree} {e : Edit} {before removed after : Text}
    (h : e.Parts t.text before removed after) :
    t.checkEdit t.text e (before ++ e.replacement ++ after) = .ok () := by
  have hcut : Text.cut? e.span.start (before ++ e.replacement ++ after) =
      some (before, e.replacement ++ after) := by
    rw [← h.start, List.append_assoc]
    exact Text.cut?_size_append _ _
  rw [checkEdit, if_neg (not_not_intro rfl), h.split]
  simp only [h.newSize_eq, hcut, ne_eq, not_true_eq_false, if_false, Text.cut?_size_append,
    mismatch?_self, Option.none_or]

/-! ## The three stretches of an edited tree -/

theorem texts_take_drop (t : Text) (k : Nat) :
    Segment.texts ((parse t).segments.take k) ++ Segment.texts ((parse t).segments.drop k) = t := by
  rw [← Segment.texts_append, List.take_append_drop, texts_parse]

/-- The segments kept are those of the new text as well, and the parse starts afresh behind
them. -/
theorem segments_parse_kept {e : Edit} {t before removed after : Text}
    (h : e.Parts t before removed after) {kept : List Segment}
    (hkept : kept = (parse t).segments.take ((parse t).keptBefore e.span.start)) :
    ∃ x, before ++ e.replacement ++ after = Segment.texts kept ++ x ∧
      (parse (before ++ e.replacement ++ after)).segments = kept ++ (parse x).segments := by
  rcases (parse t).keptBefore_cases e.span.start with hzero | ⟨k, g, hk, hg, hc, hlt⟩
  · rw [hzero, List.take_zero] at hkept
    subst hkept
    exact ⟨before ++ e.replacement ++ after, by simp, rfl⟩
  · rw [hk] at hkept
    subst hkept
    rw [← Segment.size_texts, ← h.start] at hlt
    have hsplit := texts_take_drop t (k + 1)
    generalize hp : Segment.texts ((parse t).segments.take (k + 1)) = p at hlt hsplit ⊢
    generalize Segment.texts ((parse t).segments.drop (k + 1)) = x at hsplit
    subst hsplit
    have htext := h.text
    rw [List.append_assoc] at htext
    obtain ⟨y, rfl, rfl⟩ := Text.exists_of_append_eq_append htext (Nat.le_of_lt hlt)
    -- the edit leaves a character of what follows the statement in its place
    obtain ⟨c, y, rfl⟩ : ∃ c z, y = c :: z := by
      cases y with
      | nil => simp at hlt
      | cons c y => exact ⟨c, y, rfl⟩
    refine ⟨(c :: y) ++ e.replacement ++ after, by simp, ?_⟩
    rw [List.append_assoc p, List.append_assoc p]
    exact segments_parse_of_complete hg hc hp rfl

/-- The segments taken over are the parse of the text behind the edit. -/
theorem parse_eq_drop_of_resumeAt {e : Edit} {t before removed after front u : Text} {i : Nat}
    (h : e.Parts t before removed after) (hu : before ++ e.replacement ++ after = front ++ u)
    (hi : (parse t).resumeAt e front.size = some i) :
    (parse u).segments = (parse t).segments.drop i := by
  rw [resumeAt] at hi
  split at hi
  · cases hi
  · rename_i hpast
    obtain ⟨g, hg, hst, hoff⟩ := statementAt?_eq_some hi
    obtain ⟨u', ht, hdrop⟩ := exists_parse_eq_drop hg hst
    rw [← Segment.size_texts] at hoff
    have hle : Text.size (before ++ e.replacement) ≤ front.size := by
      rw [Text.size_append, h.start]
      exact Nat.le_of_not_lt hpast
    obtain ⟨v, rfl, rfl⟩ := Text.exists_of_append_eq_append hu hle
    have htext : before ++ removed ++ v ++ u = t := by rw [h.text, List.append_assoc _ v u]
    have hsize : Text.size (before ++ removed ++ v) =
        Text.size (Segment.texts ((parse t).segments.take i)) := by
      simp only [hoff, Text.size_append, Span.length, ← h.start, ← h.stop]
      omega
    rw [hdrop, (Text.append_inj_of_size (htext.trans ht) hsize).2]

theorem splice_eq {t : Tree} {e : Edit} {newText x : Text} {kept : List Segment}
    (hkept : kept = t.segments.take (t.keptBefore e.span.start))
    (hx : newText = Segment.texts kept ++ x) :
    t.splice e newText =
      ⟨t.keptBefore e.span.start, (Machine.segments (t.resumeAt e) (Segment.texts kept).size x).1,
        (Machine.segments (t.resumeAt e) (Segment.texts kept).size x).2⟩ := by
  subst hkept hx
  rw [splice]
  simp only [← Segment.size_texts, Text.cut?_size_append]

/-- The segments of an edited parse are those of the parse of the new text. -/
theorem join_splice {e : Edit} {t before removed after : Text}
    (h : e.Parts t before removed after) {s : Splice}
    (hs : s = (parse t).splice e (before ++ e.replacement ++ after)) :
    s.join (parse t).segments s.fresh = (parse (before ++ e.replacement ++ after)).segments := by
  obtain ⟨x, hx, hparse⟩ := segments_parse_kept h rfl
  rw [splice_eq rfl hx] at hs
  rw [hparse]
  generalize hkept : (parse t).segments.take ((parse t).keptBefore e.span.start) = kept at hs hx ⊢
  have hends := Machine.ends_segments ((parse t).resumeAt e) (Segment.texts kept).size x
  generalize Machine.segments ((parse t).resumeAt e) (Segment.texts kept).size x = r at hs hends
  subst hs
  rcases hends.resume with ⟨hnone, hrun⟩ | ⟨y, u, hrest, hsome, hres, hrun⟩
  · rw [Machine.eq_parse_of_ends_init hrun]
    simp [Splice.join, hkept]
  · have hfresh : r.1 ++ (parse u).segments = (parse x).segments :=
      congrArg Prod.fst (Machine.eq_parse_of_ends_init hrun)
    obtain ⟨i, hi⟩ := Option.isSome_iff_exists.1 hsome
    have hrest : x = y ++ u := hrest
    have hres : (parse t).resumeAt e (Text.size (Segment.texts kept ++ y)) = some i := by
      rw [Text.size_append, ← hi]
      exact hres
    rw [hrest, ← List.append_assoc] at hx
    rw [← hfresh, parse_eq_drop_of_resumeAt h hx hres]
    simp [Splice.join, hkept, hi]

theorem reparse_of_parts {e : Edit} {t before removed after : Text}
    (h : e.Parts t before removed after) :
    (parse t).reparse t e (before ++ e.replacement ++ after) =
      .ok (parse (before ++ e.replacement ++ after)) := by
  have hcheck := checkEdit_of_parts (t := parse t) h
  have hjoin := join_splice h rfl
  rw [text_parse] at hcheck
  rw [reparse, spliceChecked, hcheck]
  exact congrArg (fun segs => Except.ok (Tree.mk _ segs)) hjoin

theorem edit_of_parts {e : Edit} {t before removed after : Text}
    (h : e.Parts t before removed after) :
    (parse t).edit e = .ok (parse (before ++ e.replacement ++ after)) := by
  rw [edit, text_parse, h.apply]
  exact reparse_of_parts h

/-! ## Runs of edits -/

theorem edit_of_not_valid {e : Edit} {t : Tree} (h : ¬e.Valid t.text) :
    ∃ error, t.edit e = .error error := by
  cases ha : e.apply t.text with
  | error error =>
      refine ⟨.edit error, ?_⟩
      rw [edit, ha]
      rfl
  | ok u => exact absurd (Edit.valid_of_apply ha) h

/-- The tree after the edits, of which those that fail leave it as it is. -/
def editAll (t : Tree) (es : List Edit) : Tree :=
  es.foldl (fun t e => (t.edit e).toOption.getD t) t

/-- Edits lead from parses to parses. -/
theorem editAll_parse (s : Text) (es : List Edit) : ∃ t, (parse s).editAll es = parse t := by
  induction es generalizing s with
  | nil => exact ⟨s, rfl⟩
  | cons e es ih =>
      rw [editAll, List.foldl_cons]
      by_cases h : e.Valid s
      · obtain ⟨before, removed, after, hparts⟩ := h.exists_parts
        rw [edit_of_parts hparts]
        exact ih _
      · obtain ⟨error, herror⟩ := edit_of_not_valid (t := parse s) h
        rw [herror]
        exact ih s

/-- However a parse has been edited, it is the parse of its text, and the edits that can be made to
that text, and only they, succeed and give the parse of the text they lead to. -/
theorem edit_editAll_parse (s : Text) (es : List Edit) (t : Tree) (ht : t = (parse s).editAll es) :
    t = parse t.text ∧
      ∀ e : Edit,
        (e.Valid t.text → ∃ u, e.apply t.text = .ok u ∧ t.edit e = .ok (parse u) ∧
          t.reparse t.text e u = .ok (parse u)) ∧
        (¬e.Valid t.text → ∃ error, t.edit e = .error error) := by
  obtain ⟨text, htext⟩ := editAll_parse s es
  rw [htext] at ht
  subst ht
  refine ⟨rfl, fun e => ⟨fun h => ?_, edit_of_not_valid⟩⟩
  obtain ⟨before, removed, after, hparts⟩ := h.exists_parts
  exact ⟨_, hparts.apply, edit_of_parts hparts, reparse_of_parts hparts⟩

/-- A brace that one edit puts between two statements is taken out by the next. -/
theorem edit_editAll_parse_brace :
    ∃ t, t = (parse "READ SORT".toList).editAll [⟨⟨4, 5⟩, "\x7b".toList⟩] ∧
      (⟨⟨4, 5⟩, "\n".toList⟩ : Edit).Valid t.text ∧
      ∃ u, (⟨⟨4, 5⟩, "\n".toList⟩ : Edit).apply t.text = .ok u ∧
        t.edit ⟨⟨4, 5⟩, "\n".toList⟩ = .ok (parse u) ∧
        t.reparse t.text ⟨⟨4, 5⟩, "\n".toList⟩ u = .ok (parse u) := by
  have hvalid : (⟨⟨4, 5⟩, "\n".toList⟩ : Edit).Valid
      ((parse "READ SORT".toList).editAll [⟨⟨4, 5⟩, "\x7b".toList⟩]).text := by
    decide
  exact ⟨_, rfl, hvalid, ((edit_editAll_parse _ _ _ rfl).2 _).1 hvalid⟩

end Tree

end BibStyle
