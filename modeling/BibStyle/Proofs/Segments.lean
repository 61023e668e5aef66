import BibStyle.Proofs.Graft

/-!
# How the segments of a parse grow

Finished segments are never touched again (`Ends.segments_prefix`). A move adds to them in two ways
only: the outermost node is closed, or the fillers set aside between statements become segments.
A statement, in particular, is added by closing it when it is settled (`Moves.grows`).

So a parse starts afresh wherever one of its statements starts: the segments from that statement on
are the parse of the text from there on (`Tree.exists_parse_eq_drop`).
-/

namespace BibStyle

namespace Machine

namespace State

variable {s : State}

/-! ## Inside a segment -/

theorem segments_attach (n : Node) (h : s.frames ≠ []) : (s.attach n).segments = s.segments := by
  unfold attach
  split
  · rfl
  · rename_i hs
    simp [frames, hs] at h

theorem segments_flush (h : s.frames ≠ []) : s.flush.segments = s.segments := by
  refine (flush_induction (p := fun u => u.frames ≠ [] ∧ u.segments = s.segments) s ⟨h, rfl⟩ ?_).2
  rintro u t ⟨hu, hseg⟩
  exact ⟨by simpa using hu, (segments_attach _ hu).trans hseg⟩

theorem segments_mark (fault : Fault) (h : s.frames ≠ []) :
    (s.mark fault).segments = s.segments :=
  segments_attach _ h

@[simp] theorem segments_setFrame (frame : Frame) : (s.setFrame frame).segments = s.segments := by
  unfold setFrame
  split <;> rfl

@[simp] theorem frames_setFrame_eq_nil (frame : Frame) :
    (s.setFrame frame).frames = [] ↔ s.frames = [] := by
  unfold setFrame
  split <;> simp_all [frames]

theorem segments_take (field : Option Field) (t : Token) (rest : Text) (h : s.frames ≠ []) :
    (s.take field t rest).segments = s.segments := by
  have hf : s.flush.frames ≠ [] := by simpa using h
  exact (segments_attach (.ofToken field t) hf).trans (segments_flush h)

theorem segments_enter (frame : Frame) (h : s.frames ≠ []) :
    (s.enter frame).segments = s.segments :=
  segments_flush h

/-- Closing a node inside another leaves the segments alone. -/
theorem segments_close_inner {f g : Frame} {fs : List Frame} (fault : Option Fault)
    (h : s.frames = f :: g :: fs) : (s.close fault).segments = s.segments := by
  obtain ⟨level, levels, hs, rfl, hl⟩ := List.map_eq_cons_iff.1 h
  obtain ⟨level', below, rfl, -, -⟩ := List.map_eq_cons_iff.1 hl
  unfold close
  rw [hs]
  exact segments_attach _ (by simp [frames])

/-- Closing the outermost node finishes a segment of its kind. -/
theorem segments_close_outer {f : Frame} (fault : Option Fault) (h : s.frames = [f]) :
    ∃ node, (s.close fault).segments = ⟨node, !s.early⟩ :: s.segments ∧
      node.kind = .node f.kind := by
  obtain ⟨⟨frame, children⟩, levels, hs, rfl, hl⟩ := List.map_eq_cons_iff.1 h
  obtain rfl := List.map_eq_nil_iff.1 hl
  unfold close
  rw [hs]
  exact ⟨_, rfl, rfl⟩

/-! ## Between statements -/

/-- A filler between statements, as the segment it becomes. -/
def fillerSegment (t : Token) : Segment := ⟨.ofToken none t, false⟩

theorem isStatement_fillerSegment (t : Token) : (fillerSegment t).isStatement = false := rfl

theorem attach_of_stack_nil (n : Node) (h : s.stack = []) :
    s.attach n = { s with segments := ⟨n, false⟩ :: s.segments } := by
  unfold attach
  rw [h]

theorem flush_of_stack_nil (h : s.stack = []) :
    s.flush = { s with pending := [], segments := s.pending.map fillerSegment ++ s.segments } := by
  unfold flush
  induction s.pending with
  | nil => rfl
  | cons t ts ih =>
      rw [List.foldr_cons, ih]
      exact attach_of_stack_nil _ h

theorem segments_flush_of_stack_nil (h : s.stack = []) :
    s.flush.segments = s.pending.map fillerSegment ++ s.segments := by
  rw [flush_of_stack_nil h]

end State

/-! ## What a move adds -/

/-- Only the node that closes makes a segment, and it is of the kind of its frame. -/
theorem Action.segments_run {a : Action} {s : State} {look : Lookahead} {f : Frame}
    {fs : List Frame} (h : s.frames = f :: fs) (hl : a.takes = true → look.isSome = true) :
    (a.frames (f :: fs) ≠ [] ∧ (a.run s look).segments = s.segments) ∨
      (a.frames (f :: fs) = [] ∧ ∃ node, (a.run s look).segments =
        ⟨node, !a.early s.early⟩ :: s.segments ∧ node.kind = .node f.kind) := by
  have hne : s.frames ≠ [] := by simp [h]
  have hclose : ∀ (u : State) (fault : Option Fault), u.frames = s.frames →
      u.segments = s.segments → (fs ≠ [] ∧ (u.close fault).segments = s.segments) ∨
        (fs = [] ∧ ∃ node, (u.close fault).segments = ⟨node, !u.early⟩ :: s.segments ∧
          node.kind = .node f.kind) := by
    intro u fault hu hseg
    rw [h] at hu
    rcases fs with - | ⟨g, fs⟩
    · obtain ⟨node, hnode, hk⟩ := u.segments_close_outer fault hu
      exact .inr ⟨rfl, node, hseg ▸ hnode, hk⟩
    · exact .inl ⟨by simp, (u.segments_close_inner fault hu).trans hseg⟩
  cases a with
  | take g field =>
      obtain ⟨⟨t, rest⟩, rfl⟩ := Option.isSome_iff_exists.1 (hl rfl)
      refine .inl ⟨by simp [frames], ?_⟩
      rw [run, State.segments_take _ _ _ (by simpa using hne), State.segments_setFrame]
  | fill e g =>
      obtain ⟨⟨t, rest⟩, rfl⟩ := Option.isSome_iff_exists.1 (hl rfl)
      refine .inl ⟨by simp [frames], ?_⟩
      rw [run, State.segments_take _ _ _ (by simpa using hne), State.segments_setFrame,
        State.segments_mark _ (by simpa using hne), State.segments_flush hne]
  | descend g child =>
      obtain ⟨⟨t, rest⟩, rfl⟩ := Option.isSome_iff_exists.1 (hl rfl)
      refine .inl ⟨by simp [frames], ?_⟩
      rw [run, State.segments_take _ _ _ (by simp), State.segments_enter _ (by simpa using hne),
        State.segments_setFrame]
  | finish field =>
      obtain ⟨⟨t, rest⟩, rfl⟩ := Option.isSome_iff_exists.1 (hl rfl)
      have := hclose (s.take field t rest) none (by simp) (State.segments_take _ _ _ hne)
      rwa [State.early_take] at this
  | abort fault => exact hclose s.closeEarly (some fault) rfl rfl
  | stop fault => exact hclose s (some fault) rfl rfl
  | lack fault =>
      have := hclose (s.mark fault) none (by simp) (State.segments_mark _ hne)
      rwa [State.early_mark] at this
  | abandon fault g =>
      refine .inl ⟨by simp [frames], ?_⟩
      exact (State.segments_setFrame g).trans (State.segments_mark fault hne)
  | recover found recovery header =>
      refine .inl ⟨by simp [frames], ?_⟩
      cases header with
      | true => exact State.segments_enter (s := s.closeEarly) _ hne
      | false => exact State.segments_enter _ hne

/-- A statement closes only when it is settled, never on the next token. -/
theorem Frame.frames_action_statement (command : Command) (items : List Item) (slot : Option Slot)
    (kind : Option TokenKind) (fs : List Frame) :
    ((Frame.statement command items slot).action kind).frames
      (.statement command items slot :: fs) ≠ [] := by
  rw [action_eq_some]
  generalize kind.getD .keyword = k
  cases slot with
  | none =>
      rcases items with - | ⟨f | ⟨f, cls⟩ | f, items⟩ <;> cases k <;>
        simp [action, itemAction, Action.frames]
  | some slot =>
      obtain ⟨f, cls, filled⟩ := slot
      cases cls <;> cases filled <;> cases k <;>
        simp [action, slotAction, Class.accepts, TokenKind.isSymbol, Action.frames]

/-- What a move adds to the segments. -/
inductive Grows (s s' : State) : Prop where
  | same (segments : s'.segments = s.segments) (stack : s'.stack = [] ↔ s.stack = [])
  | finish (node : Node) (before : s.stack ≠ []) (after : s'.stack = [])
      (segments : s'.segments = ⟨node, !s'.early⟩ :: s.segments)
      (statement : node.isStatement = true → s.isSettled = true ∧ s' = s.close none)
  | fillers (before : s.stack = []) (after : s'.stack ≠ [])
      (segments : s'.segments = s.flush.segments) (solid : Solid (lex .normal s.rest))

theorem Moves.grows {s s' : State} (hm : Moves s s') (hw : WellFormed s) : Grows s s' := by
  cases hm with
  | settle settled =>
      obtain ⟨command, items, hfs, -⟩ := hw.frames_of_isSettled settled
      obtain ⟨node, hnode, -⟩ := s.segments_close_outer none hfs
      refine .finish node ?_ ?_ ?_ fun _ => ⟨settled, rfl⟩
      · simp [State.stack_eq_nil_iff, hfs]
      · simp [State.stack_eq_nil_iff, hfs]
      · rw [hnode, State.early_close]
  | skip open_ lexed filler => exact .same rfl Iff.rfl
  | @act frame children below open_ stack solid =>
      have hfs := frames_of_stack_cons stack
      have hl : (s.decision frame).takes = true → _ := isSome_lex_of_takes
      have hframes := Action.frames_run hfs hl
      rcases Action.segments_run hfs hl with ⟨hne, hseg⟩ | ⟨hnil, node, hseg, hk⟩
      · refine .same hseg ?_
        rw [State.stack_eq_nil_iff, hframes]
        simp [hne, stack]
      · refine .finish node (by simp [stack]) ?_ (by rw [hseg, Action.early_run]) ?_
        · rw [State.stack_eq_nil_iff, hframes, hnil]
        · intro hst
          rw [Node.isStatement, hk] at hst
          cases frame with
          | statement command items slot =>
              exact absurd hnil (Frame.frames_action_statement command items slot _ _)
          | _ => cases hst
  | start stack lexed keyword named =>
      refine .fillers stack ?_ ?_ ?_
      · simp [State.stack_eq_nil_iff, State.start]
      · exact State.segments_take (s := s.atRest.enter _) _ _ _ (by simp) |>.trans
          (by rw [State.enter, State.flush_of_pending_nil (State.pending_atRest s)]; rfl)
      · simp [Solid, lexed, keyword, TokenKind.isFiller]
  | stray stack lexed filler keyword =>
      refine .fillers stack ?_ ?_ ?_
      · simp [State.stack_eq_nil_iff, State.recover]
      · rw [State.recover, State.enter, State.flush_of_pending_nil (State.pending_atRest s)]
        rfl
      · simp [Solid, lexed, filler]

theorem Grows.suffix {s s' : State} (h : Grows s s') : s.segments <:+ s'.segments := by
  cases h with
  | same segments _ => exact segments ▸ List.suffix_rfl
  | finish _ _ _ segments _ => exact segments ▸ List.suffix_cons _ _
  | fillers before _ segments _ =>
      rw [segments, State.segments_flush_of_stack_nil before]
      exact List.suffix_append _ _

/-! ## What a run adds -/

/-- Finished segments stay at the front of the result. -/
theorem Ends.segments_prefix {resume : Nat → Option Nat} {s : State}
    {r : List Segment × Option Nat} (h : Ends resume s r) (hw : WellFormed s) :
    s.segments.reverse <+: r.1 := by
  induction h with
  | @done s segs resumed hd =>
      obtain ⟨hs, rfl, -⟩ := step_eq_done hd
      rw [List.reverse_prefix, State.segments_flush_of_stack_nil hs]
      exact List.suffix_append _ _
  | next hn _ ih =>
      have hm := moves_of_step hn
      exact (List.reverse_prefix.2 (hm.grows hw).suffix).trans (ih (hw.moves hm))

/-- The segment finished last comes right behind the others in the result. -/
theorem getElem?_length_of_finished {g : Segment} {segs result : List Segment}
    (h : (g :: segs).reverse <+: result) : result[segs.length]? = some g := by
  obtain ⟨post, rfl⟩ := h
  rw [List.reverse_cons, List.append_assoc, List.getElem?_append_right (by simp)]
  simp

/-- The segments that fillers become are no statements. -/
theorem isStatement_of_mem_flush {s : State} {segs : List Segment} {k : Nat} {g : Segment}
    (hs : s.stack = []) (hp : s.flush.segments.reverse <+: segs) (hg : segs[k]? = some g)
    (hk : s.segments.length ≤ k) (hlt : k < s.flush.segments.length) : g.isStatement = false := by
  obtain ⟨post, rfl⟩ := hp
  rw [List.getElem?_append_left (by simpa using hlt), State.segments_flush_of_stack_nil hs,
    List.reverse_append, List.getElem?_append_right (by simpa using hk)] at hg
  obtain ⟨t, -, rfl⟩ := List.mem_map.1 (List.mem_reverse.1 (List.mem_of_getElem? hg))
  exact State.isStatement_fillerSegment t

/-- Where a run starts a statement, it is between statements and in front of a token that is no
filler; what its moves keep still holds there. -/
theorem Ends.exists_start {resume : Nat → Option Nat} {p : State → Prop}
    (hp : ∀ {s s'}, Moves s s' → p s → p s') {s : State} {r : List Segment × Option Nat} {k : Nat}
    {g : Segment} (h : Ends resume s r) (hw : WellFormed s) (hs : p s) (hg : r.1[k]? = some g)
    (hst : g.isStatement = true) (hk : s.segments.length ≤ k)
    (hopen : s.stack ≠ [] → s.segments.length < k) :
    ∃ u u', p u ∧ u.stack = [] ∧ Solid (lex .normal u.rest) ∧ step resume u = .next u' ∧
      Ends resume u' r ∧ r.1.take k = u.flush.segments.reverse := by
  induction h with
  | @done s segs resumed hd =>
      obtain ⟨hs, rfl, -⟩ := step_eq_done hd
      have hlt : k < s.flush.segments.length := by
        simpa using (List.getElem?_eq_some_iff.1 hg).1
      have hno := isStatement_of_mem_flush hs List.prefix_rfl hg hk hlt
      simp [hst] at hno
  | @next s s' r hn run ih =>
      have hm := moves_of_step hn
      have hw' := hw.moves hm
      cases hm.grows hw with
      | same segments stack =>
          refine ih hw' (hp hm hs) hg (segments ▸ hk) ?_
          intro hs'
          exact segments ▸ hopen fun hs => hs' (stack.2 hs)
      | finish _ before after segments _ =>
          have hlt := hopen before
          refine ih hw' (hp hm hs) hg ?_ fun hs' => absurd after hs'
          rw [segments, List.length_cons]
          omega
      | fillers before after segments solid =>
          have hprefix := run.segments_prefix hw'
          rw [segments] at hprefix
          -- the fillers in front of the statement, the statement itself, or what comes behind it
          rcases Nat.lt_trichotomy k s.flush.segments.length with hlt | heq | hgt
          · have hno := isStatement_of_mem_flush before hprefix hg hk hlt
            simp [hst] at hno
          · refine ⟨s, s', hs, before, solid, hn, run, ?_⟩
            obtain ⟨post, hpost⟩ := hprefix
            rw [← hpost]
            exact List.take_left' (by simp [heq])
          · exact ih hw' (hp hm hs) hg (by rw [segments]; omega) fun _ => by
              rw [segments]
              exact hgt

/-- Where a run starts a statement, it goes on like the parse of the text from there on. -/
theorem Ends.exists_parse_eq_drop {s : State} {r : List Segment × Option Nat} {k : Nat}
    {g : Segment} (h : Ends (fun _ => none) s r) (hw : WellFormed s) (hg : r.1[k]? = some g)
    (hst : g.isStatement = true) (hk : s.segments.length ≤ k)
    (hopen : s.stack ≠ [] → s.segments.length < k) :
    ∃ u, r.1.drop k = (Tree.parse u).segments := by
  obtain ⟨u, u', -, hs, hsolid, hn, run, htake⟩ :=
    h.exists_start (p := fun _ => True) (fun _ => id) hw trivial hg hst hk hopen
  refine ⟨u.rest, ?_⟩
  have hr : r.1 = u.flush.segments.reverse ++ (Tree.parse u.rest).segments :=
    congrArg Prod.fst ((Ends.next hn run).unique (ends_of_stack_nil hs hsolid))
  rw [← htake] at hr
  exact List.append_cancel_left ((List.take_append_drop k r.1).trans hr)

end Machine

namespace Tree

/-- The segments of a parse from a statement on are the parse of the text from there on. -/
theorem exists_parse_eq_drop {t : Text} {k : Nat} {g : Segment}
    (hg : (parse t).segments[k]? = some g) (hst : g.isStatement = true) :
    ∃ u, t = Segment.texts ((parse t).segments.take k) ++ u ∧
      (parse t).segments.drop k = (parse u).segments := by
  obtain ⟨u, hu⟩ := (ends_parse t).exists_parse_eq_drop (Machine.wellFormed_init 0 t) hg hst
    (Nat.zero_le k) (by simp [Machine.State.init])
  refine ⟨u, ?_, hu⟩
  have htexts := texts_parse t
  rw [← List.take_append_drop k (parse t).segments, Segment.texts_append, hu, texts_parse] at htexts
  exact htexts.symm

end Tree

end BibStyle
