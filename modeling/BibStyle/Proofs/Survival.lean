import BibStyle.Proofs.Closing
import BibStyle.Proofs.Incremental
import Mathlib.Order.Bounds.Basic

/-!
# What survives an edit

A statement behind an edit survives it if the new text has a statement in the same place. A run over
the new text may stop at any such statement, since the old tree has one there. It asks whether it
can stop wherever it starts a statement, so it comes past none at which it can
(`Ends.resume_eq_none`), and where it stops it can (`Ends.resume_eq_some`). Hence it stops at the
first statement that survives, and goes to the end of the text only if there is none
(`Tree.resumed_splice`).
-/

namespace BibStyle

/-! ## What a run does not pass -/

namespace Machine

/-- What a run that may stop comes to is the front of what one to the end of the text does. -/
theorem Ends.exists_unstopped {resume : Nat → Option Nat} {s : State}
    {r : List Segment × Option Nat} (h : Ends resume s r) :
    ∃ r', Ends (fun _ => none) s r' ∧ r.1 <+: r'.1 := by
  rcases h.resume with ⟨-, hends⟩ | ⟨_, u, -, -, -, hends⟩
  · exact ⟨r, hends, List.prefix_rfl⟩
  · exact ⟨_, hends, List.prefix_append _ _⟩

end Machine

/-- A text that starts with a statement starts with a keyword. -/
theorem Tree.exists_keyword_of_isStatement {t : Text} {g : Segment}
    (hsolid : Machine.Solid (lex .normal t)) (hg : (parse t).segments.head? = some g)
    (hst : g.isStatement = true) :
    ∃ tok rest, lex .normal t = some (tok, rest) ∧ tok.kind = .keyword := by
  have hfind : (parse t).segments.find? (!·.node.kind.isFiller) = some g := by
    obtain ⟨gs, hgs⟩ := List.head?_eq_some_iff.1 hg
    rw [hgs, List.find?_cons_of_pos (by simp [Kind.isFiller_of_isA_statement hst])]
  cases hl : lex .normal t with
  | none =>
      obtain rfl := lex_eq_none_iff.1 hl
      cases hg
  | some look =>
      obtain ⟨tok, rest⟩ := look
      refine ⟨tok, rest, rfl, ?_⟩
      rcases find?_segments hl (hsolid _ hl) hfind with ⟨-, hk⟩ | ⟨herror, -⟩
      · exact hk
      · have hkind : g.node.kind = .node .error := herror.1
        rw [Segment.isStatement, Node.isStatement, hkind] at hst
        cases hst

namespace Machine

/-- A run parses a statement only if it cannot stop where the statement starts. -/
theorem Ends.resume_eq_none {resume : Nat → Option Nat} {pos : Nat} {t : Text}
    {r : List Segment × Option Nat} {k : Nat} {g : Segment} (h : Ends resume (.init pos t) r)
    (hg : r.1[k]? = some g) (hst : g.isStatement = true) :
    resume (pos + (Segment.texts (r.1.take k)).size) = none := by
  obtain ⟨u, u', hpos, hs, hsolid, hn, run, htake⟩ :=
    h.exists_start (p := fun u => u.pos = pos + Text.size (u.tokens.flatMap Token.text))
      Moves.pos_eq (wellFormed_init pos t) (by simp [State.init, State.tokens, State.attached]) hg
      hst (Nat.zero_le k) (by simp [State.init])
  have hk : k < r.1.length := (List.getElem?_eq_some_iff.1 hg).1
  have hlength : u.flush.segments.reverse.length = k := by
    rw [← htake, List.length_take]
    omega
  -- without stopping, the run would go on with the parse of the rest
  obtain ⟨r', hends, post, hpost⟩ := (Ends.next hn run).exists_unstopped
  have hr : r'.1 = u.flush.segments.reverse ++ (Tree.parse u.rest).segments :=
    congrArg Prod.fst (hends.unique (ends_of_stack_nil hs hsolid))
  have hhead : (Tree.parse u.rest).segments.head? = some g := by
    rw [← List.getElem?_append_left hk, hpost, hr, List.getElem?_append_right (by omega), hlength,
      Nat.sub_self] at hg
    rwa [List.head?_eq_getElem?]
  obtain ⟨tok, rest, hl, hkeyword⟩ := Tree.exists_keyword_of_isStatement hsolid hhead hst
  obtain ⟨command, hc⟩ := ofWord?_of_keyword hl hkeyword
  rw [step_of_stack_nil hs hsolid, hl, atTop_keyword hkeyword hc] at hn
  have hsize : pos + (Segment.texts (r.1.take k)).size = u.pos := by
    rw [htake, Segment.texts, State.leavesAll_segments_flush hs, hpos]
  rw [hsize]
  cases hresume : resume u.pos with
  | none => rfl
  | some i =>
      rw [hresume] at hn
      cases hn

/-- Where a run stops, it can. -/
theorem Ends.resume_eq_some {resume : Nat → Option Nat} {pos i : Nat} {t : Text}
    {r : List Segment × Option Nat} (h : Ends resume (.init pos t) r) (hi : r.2 = some i) :
    resume (pos + (Segment.texts r.1).size) = some i := by
  rcases h.resume with ⟨hnone, -⟩ | ⟨y, u, hrest, -, hresume, hends⟩
  · rw [hi] at hnone
    cases hnone
  · have hsegs : r.1 ++ (Tree.parse u).segments = (Tree.parse t).segments :=
      congrArg Prod.fst (eq_parse_of_ends_init hends)
    have htexts := congrArg Segment.texts hsegs
    have hrest : t = y ++ u := hrest
    rw [Segment.texts_append, Tree.texts_parse, Tree.texts_parse, hrest] at htexts
    rw [List.append_cancel_right htexts, ← hi]
    exact hresume

end Machine

/-- How many bytes an edit adds to the text. -/
def Edit.delta (e : Edit) : Int := e.replacement.size - e.span.length

namespace Tree

/-! ## Statements and where they start -/

/-- Segment `i` is a statement that starts at byte `offset`. -/
def StatementAt (t : Tree) (i offset : Nat) : Prop :=
  ∃ g, t.segments[i]? = some g ∧ g.isStatement = true ∧ t.offsets[i]? = some offset

instance (t : Tree) (i offset : Nat) : Decidable (t.StatementAt i offset) :=
  decidable_of_iff (t.segments[i]?.any (·.isStatement) = true ∧ t.offsets[i]? = some offset) <| by
    cases h : t.segments[i]? <;> simp [StatementAt, h]

/-- Segment `j` is a statement behind the edit, and the new tree has a statement in the same
place. -/
def Survives (old new : Tree) (e : Edit) (j : Nat) : Prop :=
  ∃ offset, old.StatementAt j offset ∧ e.span.stop ≤ offset ∧
    ∃ k offset', new.StatementAt k offset' ∧ (offset' : Int) = offset + e.delta

theorem statementAt_iff {t : Tree} {i offset : Nat} : t.StatementAt i offset ↔
    ∃ g, t.segments[i]? = some g ∧ g.isStatement = true ∧
      offset = (Segment.texts (t.segments.take i)).size := by
  have hoffset : ∀ g, t.segments[i]? = some g →
      t.offsets[i]? = some (Segment.texts (t.segments.take i)).size := by
    intro g hg
    rw [offsets, getElem?_offsetsFrom, hg, Option.map_some, Nat.zero_add, Segment.size_texts]
  constructor
  · rintro ⟨g, hg, hst, ho⟩
    rw [hoffset g hg] at ho
    exact ⟨g, hg, hst, (Option.some.inj ho).symm⟩
  · rintro ⟨g, hg, hst, rfl⟩
    exact ⟨g, hg, hst, hoffset g hg⟩

theorem size_texts_take_le (segs : List Segment) {i j : Nat} (h : i ≤ j) :
    (Segment.texts (segs.take i)).size ≤ (Segment.texts (segs.take j)).size := by
  obtain ⟨post, hpost⟩ := List.take_prefix_take_left (l := segs) h
  rw [← hpost, Segment.texts_append, Text.size_append]
  exact Nat.le_add_right _ _

theorem lt_of_size_texts_take_lt {segs : List Segment} {i j : Nat}
    (h : (Segment.texts (segs.take i)).size < (Segment.texts (segs.take j)).size) : i < j := by
  apply Nat.lt_of_not_le
  intro hle
  exact Nat.not_lt_of_le (size_texts_take_le segs hle) h

/-- No segment of a parse is empty, so each starts behind those before it. -/
theorem size_texts_take_lt {t : Text} {i j : Nat} {g : Segment}
    (hg : (parse t).segments[i]? = some g) (h : i < j) :
    (Segment.texts ((parse t).segments.take i)).size <
      (Segment.texts ((parse t).segments.take j)).size := by
  have hmem := List.mem_of_getElem? hg
  obtain ⟨hall, hfile⟩ := schema_segments t g.node (List.mem_map_of_mem hmem)
  obtain ⟨tok, ts, hleaves, -⟩ := hfile.leaves_eq hall.self
  have htok : tok.text ≠ [] := by
    obtain ⟨us, hreads, hus⟩ := reads_parse t
    apply hreads.text_ne_nil
    obtain ⟨before, after, hsplit⟩ := List.append_of_mem hmem
    rw [← hus, hsplit, List.map_append, List.map_cons, Node.leavesAll_append, Node.leavesAll_cons,
      hleaves]
    simp
  have hnext : (parse t).segments.take (i + 1) = (parse t).segments.take i ++ [g] := by
    rw [List.take_add_one, hg]
    rfl
  have hpos : 0 < (Segment.texts [g]).size := by
    apply Text.size_pos
    simp [Segment.texts, hleaves, htok]
  have hle := size_texts_take_le (parse t).segments (Nat.succ_le_of_lt h)
  rw [hnext, Segment.texts_append, Text.size_append] at hle
  omega

/-! ## What is taken over -/

theorem exists_statementAt?_of_statementAt {t : Tree} {i offset : Nat}
    (h : t.StatementAt i offset) : ∃ j, t.statementAt? offset = some j := by
  obtain ⟨g, hg, hst, ho⟩ := h
  rw [← Option.isSome_iff_exists, statementAt?, List.findIdx?_isSome, List.any_eq_true]
  exact ⟨(offset, g), List.mem_of_getElem? (List.getElem?_zip_eq_some.2 ⟨ho, hg⟩), by simp [hst]⟩

section Taken

variable {e : Edit} {t before removed after : Text}

/-- A run can stop at any statement that survives. -/
theorem resumeAt_ne_none {offset offset' i : Nat} (h : e.span.start ≤ e.span.stop)
    (hat : (parse t).StatementAt i offset) (hstop : e.span.stop ≤ offset)
    (hoffset : (offset' : Int) = offset + e.delta) :
    e.insertedTo ≤ offset' ∧ (parse t).resumeAt e offset' ≠ none := by
  have hdelta : e.delta = e.replacement.size - (e.span.stop - e.span.start) := by
    rw [Edit.delta, Span.length]
    omega
  have hinserted : e.insertedTo ≤ offset' := by
    rw [Edit.insertedTo]
    omega
  have hback : offset' - e.replacement.size + e.span.length = offset := by
    rw [Span.length]
    omega
  refine ⟨hinserted, ?_⟩
  obtain ⟨j, hj⟩ := exists_statementAt?_of_statementAt hat
  rw [resumeAt, if_neg (Nat.not_lt_of_le hinserted), hback, hj]
  simp

/-- Where a run stops, a statement of the old tree stood behind the edit. -/
theorem statementAt_of_resumeAt {t : Tree} {pos i : Nat} (h : e.span.start ≤ e.span.stop)
    (hi : t.resumeAt e pos = some i) :
    ∃ offset, t.StatementAt i offset ∧ e.span.stop ≤ offset ∧ (pos : Int) = offset + e.delta := by
  rw [resumeAt] at hi
  split at hi
  · cases hi
  · rename_i hpast
    rw [Edit.insertedTo] at hpast
    obtain ⟨g, hg, hst, hoffset⟩ := statementAt?_eq_some hi
    rw [← Segment.size_texts] at hoffset
    refine ⟨_, statementAt_iff.2 ⟨g, hg, hst, hoffset.symm⟩, ?_, ?_⟩
    · rw [Span.length]
      omega
    · rw [Edit.delta, Span.length]
      omega

/-- The segments that are kept end before the edit. -/
theorem keptBefore_eq_zero_or (t : Tree) (start : Nat) : t.keptBefore start = 0 ∨
    (Segment.texts (t.segments.take (t.keptBefore start))).size < start := by
  rcases t.keptBefore_cases start with hzero | ⟨k, g, hk, -, -, hlt⟩
  · exact .inl hzero
  · rw [hk, Segment.size_texts]
    exact .inr hlt

section Run

variable {x : Text} {r : List Segment × Option Nat} {new : Tree} {kept tail : List Segment}
  {i j k offset : Nat}

/-- A run that starts behind the segments kept has come past no statement it could stop at. -/
theorem length_le_of_resumeAt_ne_none
    (hkept : kept = (parse t).segments.take ((parse t).keptBefore e.span.start))
    (hends : Machine.Ends ((parse t).resumeAt e) (.init (Segment.texts kept).size x) r)
    (hnew : new.segments = kept ++ (r.1 ++ tail)) (hat : new.StatementAt k offset)
    (hinserted : e.insertedTo ≤ offset) (hresume : (parse t).resumeAt e offset ≠ none) :
    kept.length + r.1.length ≤ k := by
  obtain ⟨g, hg, hst, rfl⟩ := statementAt_iff.1 hat
  rw [hnew] at hg hinserted hresume
  have hfront : kept.length ≤ k := by
    apply Nat.le_of_not_lt
    intro hlt
    rw [List.take_append_of_le_length (Nat.le_of_lt hlt)] at hinserted
    have hle := size_texts_take_le kept (Nat.le_of_lt hlt)
    rw [List.take_length] at hle
    rcases (parse t).keptBefore_eq_zero_or e.span.start with hzero | hbefore
    · rw [hkept, hzero] at hlt
      cases hlt
    · rw [← hkept] at hbefore
      rw [Edit.insertedTo] at hinserted
      omega
  apply Nat.le_of_not_lt
  intro hlt
  rw [List.getElem?_append_right hfront, List.getElem?_append_left (by omega)] at hg
  rw [List.take_append, List.take_of_length_le hfront, List.take_append_of_le_length (by omega),
    Segment.texts_append, Text.size_append] at hresume
  exact hresume (hends.resume_eq_none hg hst)

/-- What survives is not among the segments parsed anew. -/
theorem Survives.exists_length_le (h : (parse t).Survives new e j)
    (hordered : e.span.start ≤ e.span.stop)
    (hkept : kept = (parse t).segments.take ((parse t).keptBefore e.span.start))
    (hends : Machine.Ends ((parse t).resumeAt e) (.init (Segment.texts kept).size x) r)
    (hnew : new.segments = kept ++ (r.1 ++ tail)) :
    ∃ offset k offset', (parse t).StatementAt j offset ∧ new.StatementAt k offset' ∧
      (offset' : Int) = offset + e.delta ∧ kept.length + r.1.length ≤ k := by
  obtain ⟨offset, hat, hstop, k, offset', hat', hoffset⟩ := h
  obtain ⟨hinserted, hresume⟩ := resumeAt_ne_none hordered hat hstop hoffset
  exact ⟨offset, k, offset', hat, hat', hoffset,
    length_le_of_resumeAt_ne_none hkept hends hnew hat' hinserted hresume⟩

/-- What a run stops at is the first statement that survives. -/
theorem isLeast_survives (hordered : e.span.start ≤ e.span.stop)
    (hkept : kept = (parse t).segments.take ((parse t).keptBefore e.span.start))
    (hends : Machine.Ends ((parse t).resumeAt e) (.init (Segment.texts kept).size x) r)
    (hnew : new.segments = kept ++ (r.1 ++ (parse t).segments.drop i))
    (hresume : (parse t).resumeAt e (Segment.texts (kept ++ r.1)).size = some i) :
    (parse t).keptBefore e.span.start ≤ i ∧ IsLeast {j | (parse t).Survives new e j} i := by
  obtain ⟨offset, hat, hstop, hoffset⟩ := statementAt_of_resumeAt hordered hresume
  obtain ⟨g, hg, hst, hsize⟩ := statementAt_iff.1 hat
  have hfront : new.segments.take (kept.length + r.1.length) = kept ++ r.1 := by
    rw [hnew, ← List.append_assoc]
    exact List.take_left' (by simp)
  have hat' : new.StatementAt (kept.length + r.1.length) (Segment.texts (kept ++ r.1)).size := by
    refine statementAt_iff.2 ⟨g, ?_, hst, by rw [hfront]⟩
    rw [hnew, ← List.append_assoc, List.getElem?_append_right (by simp), List.length_append,
      Nat.sub_self, List.getElem?_drop]
    exact hg
  refine ⟨?_, ⟨offset, hat, hstop, _, _, hat', hoffset⟩, ?_⟩
  · rcases (parse t).keptBefore_eq_zero_or e.span.start with hzero | hbefore
    · rw [hzero]
      exact Nat.zero_le i
    · rw [← hkept] at hbefore
      have hlt : (Segment.texts kept).size <
          (Segment.texts ((parse t).segments.take i)).size := by omega
      rw [hkept] at hlt
      exact Nat.le_of_lt (lt_of_size_texts_take_lt hlt)
  · intro j hj
    obtain ⟨offset', k, offset'', hatj, hat'', hoffset', hle⟩ :=
      hj.exists_length_le hordered hkept hends hnew
    -- the new tree has the statement at the place where the run stops, or behind it
    have hplace := size_texts_take_le new.segments hle
    obtain ⟨g', hg', -, hsize'⟩ := statementAt_iff.1 hatj
    obtain ⟨-, -, -, hsize''⟩ := statementAt_iff.1 hat''
    rw [hfront, ← hsize''] at hplace
    apply Nat.le_of_not_lt
    intro hlt
    have := size_texts_take_lt hg' hlt
    omega

end Run

/-- The first statement that survives is where the segments taken over start, and nothing survives
if none are. -/
theorem resumed_splice (h : e.Parts t before removed after) {new : Tree}
    (hnew : new = parse (before ++ e.replacement ++ after)) {s : Splice}
    (hs : s = (parse t).splice e (before ++ e.replacement ++ after)) :
    (s.resumed = none ∧ ∀ j, ¬(parse t).Survives new e j) ∨
      ∃ i, s.resumed = some i ∧ (parse t).keptBefore e.span.start ≤ i ∧
        IsLeast {j | (parse t).Survives new e j} i := by
  have hordered : e.span.start ≤ e.span.stop := by
    rw [← h.start, ← h.stop]
    exact Nat.le_add_right _ _
  have hjoin := join_splice h hs
  rw [← hnew] at hjoin
  obtain ⟨x, hx, -⟩ := segments_parse_kept h rfl
  rw [splice_eq rfl hx] at hs
  generalize hkept : (parse t).segments.take ((parse t).keptBefore e.span.start) = kept at hs
  have hends := Machine.ends_segments ((parse t).resumeAt e) (Segment.texts kept).size x
  generalize Machine.segments ((parse t).resumeAt e) (Segment.texts kept).size x = r at hs hends
  subst hs
  rw [Splice.join, List.append_assoc, hkept] at hjoin
  cases hresumed : r.2 with
  | none =>
      refine .inl ⟨rfl, fun j hj => ?_⟩
      obtain ⟨_, k, _, -, ⟨g, hg, -⟩, -, hle⟩ :=
        hj.exists_length_le hordered hkept.symm hends hjoin.symm
      have hlt := (List.getElem?_eq_some_iff.1 hg).1
      rw [← hjoin] at hlt
      simp [hresumed] at hlt
      omega
  | some i =>
      have hresume := hends.resume_eq_some hresumed
      rw [← Text.size_append, ← Segment.texts_append] at hresume
      simp only [hresumed] at hjoin
      exact .inr ⟨i, rfl, isLeast_survives hordered hkept.symm hends hjoin.symm hresume⟩

end Taken

/-- No more segments are kept than there are. -/
theorem keptBefore_le (t : Tree) (start : Nat) : t.keptBefore start ≤ t.segments.length := by
  refine Nat.le_trans (List.dropWhile_sublist _).length_le ?_
  rw [List.length_reverse, List.length_take]
  exact Nat.min_le_right _ _

end Tree

end BibStyle
