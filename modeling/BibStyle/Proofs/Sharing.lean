import BibStyle.Proofs.Survival
import BibStyle.Revision

/-!
# What an edit shares

A revision keeps the stamps of the segments that an edit takes over, and gives new ones to the rest.
So its stamps stay distinct (`Revision.Stamped`), and the segments it shares with the revision
before are those kept at the front and those from the first statement that survives on
(`Revision.edit_shares`).
-/

namespace BibStyle

/-! ## Putting pieces together -/

namespace Splice

variable {α β : Type} {s : Splice}

/-- What is put together is pieces that stay and fresh ones. -/
theorem perm_join (old fresh : List α) : (s.join old fresh).Perm (s.join old [] ++ fresh) := by
  unfold join
  rw [List.append_nil, List.append_assoc, List.append_assoc]
  exact List.perm_append_comm.append_left _

/-- No piece is used twice. -/
theorem sublist_join (h : ∀ i, s.resumed = some i → s.kept ≤ i) (old : List α) :
    (s.join old []).Sublist old := by
  unfold join
  rw [List.append_nil]
  cases hresumed : s.resumed with
  | none =>
      rw [List.append_nil]
      exact List.take_sublist _ _
  | some i =>
      have hdrop : (old.drop i).Sublist (old.drop s.kept) :=
        List.drop_sublist_drop_left old (h i hresumed)
      have happend := hdrop.append_left (old.take s.kept)
      rwa [List.take_append_drop] at happend

theorem zip_join {old fresh : List α} {old' fresh' : List β} (h : old.length = old'.length)
    (h' : fresh.length = fresh'.length) :
    (s.join old fresh).zip (s.join old' fresh') = s.join (old.zip old') (fresh.zip fresh') := by
  unfold join
  rw [List.zip_append (by simp [h, h']), List.zip_append (by simp [h])]
  simp only [List.zip, List.take_zipWith]
  cases s.resumed with
  | none => rfl
  | some i => simp [List.drop_zipWith]

end Splice

namespace Revision

/-! ## Stamps -/

/-- The segments of the revision with their stamps. -/
def pieces (r : Revision) : List (Segment × Nat) := r.tree.segments.zip r.stamps

/-- Each segment has a stamp of its own, and the stamps have been given. -/
structure Stamped (r : Revision) : Prop where
  length : r.tree.segments.length = r.stamps.length
  given : ∀ n ∈ r.stamps, n < r.next
  nodup : r.stamps.Nodup

/-- The revision `r'` starts with the first `kept` segments of `r` and ends in those of `rest`, and
all between is new. -/
def Extends (r' r : Revision) (kept : Nat) (rest : List (Segment × Nat)) : Prop :=
  ∃ fresh, r'.pieces = r.pieces.take kept ++ fresh ++ rest ∧ ∀ p ∈ fresh, p.2 ∉ r.stamps

/-- The revision after the edits, of which those that fail leave it as it is. -/
def editAll (r : Revision) (es : List Edit) : Revision :=
  es.foldl (fun r e => (r.edit e).toOption.getD r) r

theorem stamped_parse (t : Text) : (parse t).Stamped where
  length := List.length_range.symm
  given := fun _ hn => List.mem_range.1 hn
  nodup := List.nodup_range

section Edit

variable {r : Revision} {e : Edit} {t before removed after : Text} {s : Splice}

/-- What an edit makes of a revision. -/
def spliced (r : Revision) (s : Splice) (newText : Text) : Revision :=
  ⟨.parse newText, s.join r.stamps (List.range' r.next s.fresh.length), r.next + s.fresh.length⟩

theorem edit_of_parts (htree : r.tree = .parse t) (h : e.Parts t before removed after)
    (hs : s = (Tree.parse t).splice e (before ++ e.replacement ++ after)) :
    r.edit e = .ok (r.spliced s (before ++ e.replacement ++ after)) := by
  have hjoin := Tree.join_splice h hs
  have hcheck := Tree.checkEdit_of_parts (t := .parse t) h
  rw [Tree.text_parse] at hcheck
  rw [edit, htree, Tree.text_parse, h.apply]
  show r.reparse t e _ = _
  rw [reparse, Tree.spliceChecked, htree, hcheck]
  simp only [Except.map, ← hs, hjoin]
  rfl

theorem edit_of_not_valid (h : ¬e.Valid r.tree.text) : ∃ error, r.edit e = .error error := by
  cases ha : e.apply r.tree.text with
  | error error =>
      refine ⟨.edit error, ?_⟩
      rw [edit, ha]
      rfl
  | ok u => exact absurd (Edit.valid_of_apply ha) h

theorem kept_le_of_resumed (h : e.Parts t before removed after)
    (hs : s = (Tree.parse t).splice e (before ++ e.replacement ++ after)) :
    ∀ i, s.resumed = some i → s.kept ≤ i := by
  intro i hi
  have hkept : s.kept = (Tree.parse t).keptBefore e.span.start := by
    rw [hs]
    rfl
  rw [hkept]
  rcases Tree.resumed_splice h rfl hs with ⟨hnone, -⟩ | ⟨j, hj, hle, -⟩
  · rw [hi] at hnone
    cases hnone
  · obtain rfl := Option.some.inj (hi.symm.trans hj)
    exact hle

theorem Stamped.not_mem_fresh (h : r.Stamped) {n m : Nat} (hn : n ∈ List.range' r.next m) :
    n ∉ r.stamps := by
  intro hmem
  have hlt := h.given n hmem
  have hle := (List.mem_range'_1.1 hn).1
  omega

/-- An edit stamps what it adds anew. -/
theorem Stamped.stamped_spliced (h : r.Stamped) (hle : ∀ i, s.resumed = some i → s.kept ≤ i)
    {newText : Text} (hjoin : s.join r.tree.segments s.fresh = (Tree.parse newText).segments) :
    (r.spliced s newText).Stamped where
  length := by
    have hlength : (s.join r.tree.segments s.fresh).length =
        (s.join r.stamps (List.range' r.next s.fresh.length)).length := by
      unfold Splice.join
      cases s.resumed <;> simp [h.length]
    rw [hjoin] at hlength
    exact hlength
  given := by
    intro n hn
    have hn := (Splice.perm_join _ _).mem_iff.1 hn
    show n < r.next + s.fresh.length
    rcases List.mem_append.1 hn with hn | hn
    · have := h.given n ((Splice.sublist_join hle r.stamps).subset hn)
      omega
    · exact (List.mem_range'_1.1 hn).2
  nodup := by
    refine (Splice.perm_join _ _).nodup_iff.2 (List.nodup_append.2 ⟨?_, List.nodup_range', ?_⟩)
    · exact h.nodup.sublist (Splice.sublist_join hle r.stamps)
    · rintro n hn _ hfresh rfl
      exact h.not_mem_fresh hfresh ((Splice.sublist_join hle r.stamps).subset hn)

theorem Stamped.shared_spliced (h : r.Stamped) (hle : ∀ i, s.resumed = some i → s.kept ≤ i)
    (hkept : s.kept ≤ r.tree.segments.length) (newText : Text) :
    (r.spliced s newText).shared r =
      s.kept + s.resumed.elim 0 (r.tree.segments.length - ·) := by
  have hold : (s.join r.stamps []).countP (r.stamps.contains ·) = (s.join r.stamps []).length := by
    rw [List.countP_eq_length]
    intro n hn
    exact List.contains_iff_mem.2 ((Splice.sublist_join hle r.stamps).subset hn)
  have hfresh : (List.range' r.next s.fresh.length).countP (r.stamps.contains ·) = 0 := by
    rw [List.countP_eq_zero]
    intro n hn hmem
    exact h.not_mem_fresh hn (List.contains_iff_mem.1 hmem)
  rw [shared_eq, spliced, (Splice.perm_join _ _).countP_eq, List.countP_append, hold, hfresh,
    Nat.add_zero, Splice.join, List.append_nil, List.length_append, List.length_take, ← h.length,
    Nat.min_eq_left hkept]
  cases s.resumed with
  | none => rfl
  | some i => simp [h.length]

theorem Stamped.extends_spliced (h : r.Stamped) {newText : Text}
    (hjoin : s.join r.tree.segments s.fresh = (Tree.parse newText).segments) :
    (r.spliced s newText).Extends r s.kept (s.resumed.elim [] (r.pieces.drop ·)) := by
  refine ⟨s.fresh.zip (List.range' r.next s.fresh.length), ?_, ?_⟩
  · rw [pieces, spliced, ← hjoin, Splice.zip_join h.length List.length_range'.symm, Splice.join]
    cases s.resumed <;> rfl
  · intro p hp
    exact h.not_mem_fresh (List.of_mem_zip hp).2

end Edit

/-- However a parse has been edited, it is the parse of a text, and its segments are stamped. -/
theorem Stamped.editAll {r : Revision} {t : Text} (htree : r.tree = .parse t) (h : r.Stamped)
    (es : List Edit) : ∃ u, (r.editAll es).tree = .parse u ∧ (r.editAll es).Stamped := by
  induction es generalizing r t with
  | nil => exact ⟨t, htree, h⟩
  | cons e es ih =>
      rw [Revision.editAll, List.foldl_cons]
      by_cases he : e.Valid r.tree.text
      · rw [htree] at he
        obtain ⟨before, removed, after, hparts⟩ := he.exists_parts
        rw [edit_of_parts htree hparts rfl]
        refine ih rfl (h.stamped_spliced (kept_le_of_resumed hparts rfl) ?_)
        rw [htree]
        exact Tree.join_splice hparts rfl
      · obtain ⟨error, herror⟩ := edit_of_not_valid he
        rw [herror]
        exact ih htree h

/-- However a parse has been edited, the next edit keeps the segments it has to keep at the front,
and at the end takes over all from the first statement that survives; the segments between are new,
and no segment is used twice. -/
theorem edit_shares (s : Text) (es : List Edit) (r : Revision) (hr : r = (parse s).editAll es)
    (e : Edit) (he : e.Valid r.tree.text) :
    ∃ newText r', e.apply r.tree.text = .ok newText ∧ r.edit e = .ok r' ∧
      r'.tree = .parse newText ∧ r'.Stamped ∧
      (∀ j, IsLeast {j | r.tree.Survives (.parse newText) e j} j →
        r.tree.keptBefore e.span.start ≤ j ∧
          r'.Extends r (r.tree.keptBefore e.span.start) (r.pieces.drop j) ∧
          r'.shared r = r.tree.keptBefore e.span.start + (r.tree.segments.length - j)) ∧
      ((∀ j, ¬r.tree.Survives (.parse newText) e j) →
        r'.Extends r (r.tree.keptBefore e.span.start) [] ∧
          r'.shared r = r.tree.keptBefore e.span.start) := by
  obtain ⟨t, htree, hstamped⟩ := (stamped_parse s).editAll rfl es
  rw [← hr] at htree hstamped
  rw [htree, Tree.text_parse] at he
  obtain ⟨before, removed, after, hparts⟩ := he.exists_parts
  generalize hs : (Tree.parse t).splice e (before ++ e.replacement ++ after) = sp
  have hle := kept_le_of_resumed hparts hs.symm
  have hjoin : sp.join r.tree.segments sp.fresh = _ := htree ▸ Tree.join_splice hparts hs.symm
  have hkept : sp.kept = r.tree.keptBefore e.span.start := by
    rw [htree, ← hs]
    rfl
  have hextends := hstamped.extends_spliced hjoin
  have hshared := hstamped.shared_spliced hle (hkept ▸ r.tree.keptBefore_le e.span.start)
    (before ++ e.replacement ++ after)
  rw [hkept] at hextends hshared
  refine ⟨_, _, htree ▸ hparts.apply, edit_of_parts htree hparts hs.symm, rfl,
    hstamped.stamped_spliced hle hjoin, ?_⟩
  rcases Tree.resumed_splice hparts rfl hs.symm with ⟨hnone, hno⟩ | ⟨i, hi, hkeep, hleast⟩
  · rw [hnone] at hextends hshared
    rw [← htree] at hno
    exact ⟨fun j hj => absurd hj.1 (hno j), fun _ => ⟨hextends, hshared⟩⟩
  · rw [hi] at hextends hshared
    rw [← htree] at hkeep hleast
    refine ⟨?_, fun hno => absurd hleast.1 (hno i)⟩
    intro j hj
    obtain rfl := hleast.unique hj
    exact ⟨hkeep, hextends, hshared⟩

/-- One edit puts a statement between two others, the next replaces it, and these two stay. -/
theorem edit_shares_between :
    ∃ r r' : Revision, r = (parse "READ READ".toList).editAll [⟨⟨4, 4⟩, " SORT".toList⟩] ∧
      r.edit ⟨⟨5, 9⟩, "REVERSE \x7bf\x7d".toList⟩ = .ok r' ∧
      r'.Extends r 1 (r.pieces.drop 4) ∧ r'.shared r = 2 := by
  generalize hr : (parse "READ READ".toList).editAll [⟨⟨4, 4⟩, " SORT".toList⟩] = r
  have htree : r.tree = .parse "READ SORT READ".toList := by
    rw [← hr]
    decide +kernel
  have hvalid : (⟨⟨5, 9⟩, "REVERSE \x7bf\x7d".toList⟩ : Edit).Valid r.tree.text := by
    rw [htree, Tree.text_parse]
    decide
  obtain ⟨newText, r', happly, hedit, -, -, hshares, -⟩ :=
    edit_shares "READ READ".toList [⟨⟨4, 4⟩, " SORT".toList⟩] r hr.symm _ hvalid
  have htext : (⟨⟨5, 9⟩, "REVERSE \x7bf\x7d".toList⟩ : Edit).apply "READ SORT READ".toList =
      .ok "READ REVERSE \x7bf\x7d READ".toList := rfl
  rw [htree, Tree.text_parse, htext] at happly
  obtain rfl := Except.ok.inj happly
  rw [htree] at hshares
  have hold : (Tree.parse "READ SORT READ".toList).StatementAt 4 10 := by decide +kernel
  have hnew : (Tree.parse "READ REVERSE \x7bf\x7d READ".toList).StatementAt 4 17 := by
    decide +kernel
  have hbefore : ∀ j < 4, ∀ g ∈ (Tree.parse "READ SORT READ".toList).segments[j]?,
      ∀ offset ∈ (Tree.parse "READ SORT READ".toList).offsets[j]?,
        g.isStatement = true → offset < 9 := by
    decide +kernel
  have hkept : (Tree.parse "READ SORT READ".toList).keptBefore 5 = 1 := by decide +kernel
  have hlength : (Tree.parse "READ SORT READ".toList).segments.length = 5 := by decide +kernel
  obtain ⟨-, hextends, hshared⟩ := hshares 4 ⟨⟨10, hold, by decide, 4, 17, hnew, by decide⟩, by
    rintro j ⟨offset, ⟨g, hg, hst, ho⟩, hstop, -⟩
    apply Nat.le_of_not_lt
    intro hj
    exact Nat.not_lt_of_le hstop (hbefore j hj g hg offset ho hst)⟩
  rw [hkept] at hextends
  rw [hlength] at hshared
  exact ⟨r, r', rfl, hedit, hextends, hshared.trans (congrArg (· + 1) hkept)⟩

end Revision

end BibStyle
