import BibStyle.Proofs.Segments

/-!
# Starting in the middle of a text

A statement that its own last token closes does not depend on what follows, beyond the first
character, which keeps the last token from growing. A text that goes on differently behind that
character has the same segments up to the statement, and then those of its own rest
(`Tree.segments_parse_of_complete`).

The run over the first text is walked backwards from where it closes the statement. `Severed` is
what is carried along: the token ahead ends before the rest, or right at it but is no stray
character, of which alone two characters of what follows matter. It is kept by steps that take the
token, and by those that do not because a token ahead changes only when a keyword between the
braces of a pattern is read again outside of them, where it does not get shorter.

A run that is stopped at a known statement is continued by the parse from there on (`Ends.resume`).
-/

namespace BibStyle

namespace Machine

/-! ## The last token of a statement -/

/-- At the end of a stretch of unexpected tokens no statement has all its parts, unless it is
closed early. -/
theorem Nested.action_unexpected {early : Bool} {found : TokenKind} {recovery : Recovery}
    {depth : Nat} {fs below : List Frame} {kind : Option TokenKind} {command : Command}
    (h : Nested early (.unexpected found recovery depth :: fs))
    (he : ((Frame.unexpected found recovery depth).action kind).early early = false) :
    ((Frame.unexpected found recovery depth).action kind).frames
      (.unexpected found recovery depth :: fs) ≠ .statement command [] none :: below := by
  intro hf
  simp only [Frame.action] at he hf
  rcases Frame.unexpectedAction_cases found recovery depth kind with ⟨ha, -⟩ |
    ⟨k, -, -, ⟨-, ha⟩ | ⟨-, ha⟩⟩ <;> rw [ha] at he hf
  · cases he
  · obtain rfl : fs = .statement command [] none :: below := hf
    cases h with
    | header hearly =>
        rw [hearly] at he
        cases he
  · cases hf

/-- A statement is settled by the closing brace of its last part, unless it is closed early. -/
theorem Nested.action_eq_settled {early : Bool} {f : Frame} {fs below : List Frame}
    {kind : Option TokenKind} {command : Command} (h : Nested early (f :: fs))
    (hopen : ∀ command items, f = .statement command items none → items ≠ [])
    (he : (f.action kind).early early = false)
    (hf : (f.action kind).frames (f :: fs) = .statement command [] none :: below) :
    kind = some .rbrace ∧ (f.action kind).takes = true := by
  rw [Frame.action_eq_some] at he hf
  cases h with
  | @statement command items slot =>
      cases slot with
      | none =>
          rcases items with - | ⟨item, items⟩
          · exact absurd rfl (hopen _ _ rfl)
          · generalize kind.getD .keyword = k at he hf
            cases item <;> cases k <;> cases he <;> cases hf
      | some slot =>
          obtain ⟨f, cls, filled⟩ := slot
          rcases kind with - | k
          · cases he
          · cases cls <;> cases filled <;> cases k <;>
              first | exact ⟨rfl, rfl⟩ | (cases he <;> cases hf)
  | list =>
      rcases kind with - | k
      · cases he
      · cases k <;> first | exact ⟨rfl, rfl⟩ | (cases he <;> cases hf)
  | block =>
      rcases kind with - | k
      · cases he
      · cases k <;> first | exact ⟨rfl, rfl⟩ | (cases he <;> cases hf)
  | inner h =>
      generalize kind.getD .keyword = k at he hf
      cases k <;> cases he <;> cases hf
  | ref h =>
      generalize kind.getD .keyword = k at he hf
      cases k <;> cases he <;> cases hf
  | between => exact absurd hf (action_unexpected .between he)
  | header hearly => exact absurd hf (action_unexpected (.header hearly) he)
  | group => exact absurd hf (action_unexpected .group he)
  | inList => exact absurd hf (action_unexpected .inList he)

/-- The statement on the stack has all its parts, and each was closed by its own brace. -/
def State.IsSealed (s : State) : Prop := s.isSettled = true ∧ s.early = false

theorem State.IsSealed.frames_eq {s : State} (h : s.IsSealed) :
    ∃ command below, s.frames = .statement command [] none :: below := by
  obtain ⟨command, items, below, hfs, hend⟩ := isSettled_iff.1 h.1
  rcases hend with he | rfl
  · rw [h.2] at he
    cases he
  · exact ⟨command, below, hfs⟩

theorem Action.pending_run_of_takes {a : Action} {s : State} {t : Token} {rest : Text}
    (h : a.takes = true) : (a.run s (some (t, rest))).pending = [] := by
  cases a <;> simp [takes] at h <;> simp [run]

/-- A statement is sealed by taking a token, which is no stray character. -/
theorem Moves.of_isSealed {s s' : State} (hm : Moves s s') (hw : WellFormed s)
    (hs : s'.IsSealed) : s'.pending = [] ∧
      ∃ t, lex s.mode s.rest = some (t, s'.rest) ∧ t.kind ≠ .strayChar := by
  obtain ⟨command, below, hfs'⟩ := hs.frames_eq
  cases hm with
  | settle settled =>
      obtain ⟨_, _, hfs, -⟩ := hw.frames_of_isSettled settled
      rw [State.frames_close, hfs] at hfs'
      cases hfs'
  | skip open_ lexed filler =>
      have hset : s.isSettled = true := hs.1
      rw [open_] at hset
      cases hset
  | @act frame children levels open_ stack solid =>
      have hfs := frames_of_stack_cons stack
      have hl : (s.decision frame).takes = true → _ := isSome_lex_of_takes
      have hopen := waits_of_not_settled open_ hfs
      have hn := hw.nested
      rw [hfs] at hn
      have hearly := hs.2
      rw [Action.early_run] at hearly
      rw [Action.frames_run hfs hl] at hfs'
      obtain ⟨hkind, htakes⟩ :=
        hn.action_eq_settled (fun c items hf => (hopen c items hf).2) hearly hfs'
      obtain ⟨⟨t, rest⟩, hlex⟩ := Option.isSome_iff_exists.1 (hl htakes)
      rw [hlex, Option.map_some, Option.some.injEq] at hkind
      rw [hlex]
      refine ⟨Action.pending_run_of_takes htakes, t, ?_, ?_⟩
      · exact congrArg (fun r => some (t, r)) (Action.rest_run_of_takes htakes).symm
      · rw [show t.kind = .rbrace from hkind]
        decide
  | @start t rest c stack lexed keyword named =>
      refine ⟨by simp [State.start], t, ?_, by simp [keyword]⟩
      rw [mode_of_stack_nil stack]
      simpa [State.start] using lexed
  | stray stack lexed filler keyword =>
      simp [State.recover] at hfs'

/-! ## When a token is read again in the other mode -/

/-- The mode of the innermost frame. -/
def modeOf : List Frame → Mode
  | [] => .normal
  | f :: _ => f.mode

theorem State.mode_eq (s : State) : s.mode = modeOf s.frames := by
  cases hf : s.frames with
  | nil => exact mode_of_frames_nil hf
  | cons f fs => exact mode_of_frames_cons hf

/-- A node inside another is read in the same mode. -/
theorem Nested.modeOf_tail {early : Bool} {f : Frame} {fs : List Frame}
    (h : Nested early (f :: fs)) (hf : ∀ command items slot, f ≠ .statement command items slot) :
    modeOf fs = f.mode := by
  cases h with
  | statement => exact absurd rfl (hf _ _ _)
  | _ => rfl

/-- A decision that takes no token keeps the mode, unless a keyword or the end of the text ends a
group. -/
theorem Nested.modeOf_action {early : Bool} {f : Frame} {fs : List Frame}
    {kind : Option TokenKind} (h : Nested early (f :: fs)) (ht : (f.action kind).takes = false) :
    modeOf ((f.action kind).frames (f :: fs)) = f.mode ∨
      (modeOf ((f.action kind).frames (f :: fs)) = .normal ∧
        (kind = none ∨ kind = some .keyword)) := by
  have hstatement : ∀ command items slot, f = .statement command items slot →
      (f.action kind).frames (f :: fs) ≠ fs := by
    rintro command items slot rfl heq
    cases h
    exact Frame.frames_action_statement command items slot kind [] heq
  have htail : (f.action kind).frames (f :: fs) = fs →
      modeOf ((f.action kind).frames (f :: fs)) = f.mode := by
    intro heq
    rw [heq]
    exact h.modeOf_tail fun command items slot hf => hstatement command items slot hf heq
  cases ha : f.action kind with
  | abort fault => exact .inl (by simpa [ha, Action.frames] using htail)
  | stop fault => exact .inl (by simpa [ha, Action.frames] using htail)
  | lack fault => exact .inl (by simpa [ha, Action.frames] using htail)
  | abandon fault g =>
      obtain ⟨command, items, slot, rfl, rfl⟩ := Frame.action_abandon ha
      refine .inr ⟨rfl, ?_⟩
      rcases kind with - | k
      · exact .inl rfl
      · refine .inr (congrArg some ?_)
        cases slot with
        | none =>
            rcases items with - | ⟨f | ⟨f, cls⟩ | f, items⟩ <;> cases k <;>
              first | rfl | cases ha
        | some slot =>
            obtain ⟨f, cls, filled⟩ := slot
            cases cls <;> cases filled <;> cases k <;> first | rfl | cases ha
  | recover found recovery header => exact .inl (Frame.action_recover ha).2.1
  | _ => rw [ha] at ht; cases ht

/-- A move that reads nothing keeps the mode, unless it leaves a pattern at a keyword. -/
theorem Moves.mode_eq {s s' : State} (hm : Moves s s') (hw : WellFormed s)
    (hr : s'.rest = s.rest) (hne : s.rest ≠ []) :
    s'.mode = s.mode ∨ (s'.mode = .normal ∧
      ∃ t rest, lex .pattern s.rest = some (t, rest) ∧ t.kind = .keyword ∧ s.mode = .pattern) := by
  have hlt : ∀ {m t}, lex m s.rest ≠ some (t, s'.rest) := by
    intro m t hl
    have := length_lt_of_lex hl
    rw [hr] at this
    omega
  cases hm with
  | settle settled =>
      obtain ⟨command, items, hfs, -⟩ := hw.frames_of_isSettled settled
      refine .inl ?_
      rw [State.mode_eq, State.mode_eq, State.frames_close, hfs]
      rfl
  | skip open_ lexed filler => exact absurd lexed hlt
  | @act frame children below open_ stack solid =>
      have hfs := frames_of_stack_cons stack
      have hl : (s.decision frame).takes = true → _ := isSome_lex_of_takes
      have ht : (s.decision frame).takes = false := by
        rw [Bool.eq_false_iff]
        intro ht
        obtain ⟨⟨t, rest⟩, hlex⟩ := Option.isSome_iff_exists.1 (hl ht)
        rw [hlex, Action.rest_run_of_takes ht] at hlt
        exact hlt hlex
      have hn := hw.nested
      rw [hfs] at hn
      have hmode := State.mode_of_frames_cons hfs
      rw [State.mode_eq, Action.frames_run hfs hl]
      rcases hn.modeOf_action ht with hsame | ⟨hnormal, hkind⟩
      · exact .inl (hsame.trans hmode.symm)
      · cases hm : s.mode with
        | normal => exact .inl hnormal
        | pattern =>
            rw [hm] at hkind
            refine .inr ⟨hnormal, ?_⟩
            cases hlex : lex .pattern s.rest with
            | none => exact absurd (lex_eq_none_iff.1 hlex) hne
            | some look => exact ⟨look.1, look.2, rfl, by simpa [hlex] using hkind, rfl⟩
  | start stack lexed keyword named => exact absurd (by simpa [State.start] using lexed) hlt
  | stray stack lexed filler keyword =>
      refine .inl ?_
      rw [mode_of_stack_nil stack]
      rfl

/-! ## Going on with another text -/

/-- The state with another text to read. -/
def State.withRest (s : State) (t : Text) : State := { s with rest := t }

theorem State.withRest_append (s : State) (w x : Text) :
    s.withRest (w ++ x) = (s.withRest w).graft x 0 [] := by
  simp [withRest, graft]

theorem State.withRest_self {s : State} {t : Text} (h : s.rest = t) : s.withRest t = s := by
  subst h
  rfl

/-- The token in front of `w` does not depend on `x` beyond its first character. -/
def EndsBefore (x : Text) (m : Mode) (t : Text) : Prop :=
  ∃ tok w, lex m t = some (tok, w ++ x) ∧ (w = [] → tok.kind ≠ .strayChar)

theorem EndsBefore.unmoved {w x x' : Text} {m : Mode} (h : EndsBefore x m (w ++ x))
    (hx : x'.head? = x.head?) : Unmoved x' m w := by
  obtain ⟨tok, v, hl, hv⟩ := h
  obtain ⟨htext, hs⟩ := lex_eq_some_iff.1 hl
  rw [← List.append_assoc] at htext
  obtain rfl := List.append_cancel_right htext
  have hahead : SameAhead tok (v ++ x) (v ++ x') := by
    rcases v with - | ⟨c, v⟩
    · exact ⟨hx.symm, fun hk => absurd hk (hv rfl)⟩
    · refine ⟨rfl, fun _ _ => ?_⟩
      rcases v with - | ⟨d, v⟩
      · exact hx.symm
      · rfl
  rw [Unmoved, lex_of_scans hs.of_append, List.append_assoc]
  exact lex_of_scans (hs.congr hahead)

/-- A step that does not depend on `x` is made on another text as well. -/
theorem step_withRest {s s' : State} {w w' x x' : Text} (hs : s.rest = w ++ x)
    (hs' : s'.rest = w' ++ x) (h : s.isSettled = false → EndsBefore x s.mode s.rest)
    (hx : x'.head? = x.head?) (hn : step (fun _ => none) s = .next s') :
    step (fun _ => none) (s.withRest (w ++ x')) = .next (s'.withRest (w' ++ x')) := by
  rw [hs] at h
  have hstep := step_graft (s := s.withRest w) (fun _ => none) 0 [] fun hset => (h hset).unmoved rfl
  rw [← State.withRest_append, State.withRest_self hs, hn] at hstep
  rw [State.withRest_append,
    step_graft (s := s.withRest w) (fun _ => none) 0 [] fun hset => (h hset).unmoved hx]
  cases hu : step (fun _ => none) (s.withRest w) with
  | done segs resumed =>
      rw [hu] at hstep
      cases hstep
  | next u =>
      rw [hu] at hstep
      simp only [Step.graft, Step.next.injEq] at hstep ⊢
      subst hstep
      rw [← List.append_cancel_right hs']
      rfl

/-- From `s` the machine comes to the segments `front` without a look at `x`, what is then left to
read, beyond its first character; what may stand there instead of `x` is parsed on its own. -/
structure Severed (front : List Segment) (x : Text) (s : State) : Prop where
  ahead : ¬s.IsSealed → EndsBefore x s.mode s.rest
  ends : ∃ w, s.rest = w ++ x ∧ ∀ x', x'.head? = x.head? →
    Ends (fun _ => none) (s.withRest (w ++ x')) (front ++ (Tree.parse x').segments, none)

theorem Severed.endsBefore_of_step {front : List Segment} {x : Text} {s s' : State}
    (h : Severed front x s') (hm : Moves s s') (hw : WellFormed s) :
    EndsBefore x s.mode s.rest := by
  obtain ⟨w, hrest, -⟩ := h.ends
  have hsealed := hm.of_isSealed hw
  rcases hm.reads with ⟨hr, -, -⟩ | ⟨t, hl, -, -⟩
  · have hnot : ¬s'.IsSealed := by
      intro hs
      obtain ⟨-, t, hl, -⟩ := hsealed hs
      have := length_lt_of_lex hl
      rw [hr] at this
      omega
    have hahead := h.ahead hnot
    obtain ⟨tok, v, hl', hv⟩ := id hahead
    have hne : s.rest ≠ [] := by
      rw [← hr]
      rintro hnil
      simp [hnil] at hl'
    rcases hm.mode_eq hw hr hne with hmode | ⟨hnormal, t, rest, hl, hk, hp⟩
    · rwa [hmode, hr] at hahead
    · -- the keyword is no longer than the token it is the front of
      rw [hnormal, hr] at hl'
      obtain ⟨tok', rest', hl'', hle⟩ := lex_normal_of_pattern_keyword hl hk
      rw [hl'] at hl''
      cases hl''
      have hsuffix : x <:+ rest := by
        have h₁ : x <:+ s.rest := ⟨w, by rw [← hr, hrest]⟩
        have h₂ : rest <:+ s.rest := ⟨t.text, (append_of_lex hl).1⟩
        refine List.suffix_of_suffix_length_le h₁ h₂ ?_
        rw [List.length_append] at hle
        omega
      obtain ⟨v', rfl⟩ := hsuffix
      exact ⟨t, v', hp ▸ hl, fun _ => by simp [hk]⟩
  · refine ⟨t, w, hrest ▸ hl, ?_⟩
    rintro rfl
    by_cases hs : s'.IsSealed
    · obtain ⟨-, t', hl', hk⟩ := hsealed hs
      rw [hl] at hl'
      cases hl'
      exact hk
    · -- a token ahead of `x` cannot end at `x` again
      obtain ⟨tok, v, hl', -⟩ := h.ahead hs
      have := length_lt_of_lex hl'
      rw [hrest, List.nil_append, List.length_append] at this
      omega

/-- Severing goes back over a step. -/
theorem Severed.of_step {front : List Segment} {x : Text} {s s' : State} (h : Severed front x s')
    (hn : step (fun _ => none) s = .next s') (hw : WellFormed s) : Severed front x s := by
  have hm := moves_of_step hn
  have hahead := h.endsBefore_of_step hm hw
  obtain ⟨w', hrest', hends⟩ := h.ends
  obtain ⟨tok, v, hl, -⟩ := id hahead
  have hrest : s.rest = (tok.text ++ v) ++ x := by
    rw [List.append_assoc]
    exact (append_of_lex hl).1.symm
  refine ⟨fun _ => hahead, tok.text ++ v, hrest, ?_⟩
  intro x' hx
  exact .next (step_withRest hrest hrest' (fun _ => hahead) hx hn) (hends x' hx)

/-- Where a sealed statement is closed, a parse starts afresh. -/
theorem severed_of_isSealed {s : State} (hs : s.IsSealed) (hw : WellFormed s)
    (hp : s.pending = []) : Severed (s.close none).segments.reverse s.rest s := by
  refine ⟨fun h => absurd hs h, [], rfl, ?_⟩
  intro x' _
  have hset : (s.withRest x').isSettled = true := hs.1
  refine .next (step_of_isSettled hset) ?_
  have hclose : (s.withRest x').close none =
      (State.init 0 x').graft [] s.pos (s.close none).segments := by
    obtain ⟨command, items, ns, hstack, -⟩ := hw.stack_of_isSettled hs.1
    have hearly := hs.2
    cases s
    simp_all [State.close, State.withRest, State.init, State.graft]
  rw [List.nil_append, hclose]
  exact ends_graft_init x' s.pos _

theorem Ends.exists_severed {s : State} {r : List Segment × Option Nat} {k : Nat} {g : Segment}
    (h : Ends (fun _ => none) s r) (hw : WellFormed s) (hp : s.IsSealed → s.pending = [])
    (hg : r.1[k]? = some g) (hc : g.isCompleteStatement = true) (hk : s.segments.length ≤ k) :
    ∃ x, Severed (r.1.take (k + 1)) x s := by
  obtain ⟨hcomplete, hst⟩ := Bool.and_eq_true_iff.1 hc
  induction h with
  | @done s segs resumed hd =>
      obtain ⟨hs, rfl, -⟩ := step_eq_done hd
      have hlt : k < s.flush.segments.length := by
        simpa using (List.getElem?_eq_some_iff.1 hg).1
      have hno := isStatement_of_mem_flush hs List.prefix_rfl hg hk hlt
      simp [hst] at hno
  | @next s s' r hn run ih =>
      have hm := moves_of_step hn
      have hw' := hw.moves hm
      have hprefix := run.segments_prefix hw'
      have hback : s'.segments.length ≤ k → ∃ x, Severed (r.1.take (k + 1)) x s := by
        intro hk'
        obtain ⟨x, hx⟩ := ih hw' (fun hs => (hm.of_isSealed hw hs).1) hg hk'
        exact ⟨x, hx.of_step hn hw⟩
      cases hm.grows hw with
      | same segments _ => exact hback (segments ▸ hk)
      | finish node before after segments statement =>
          rw [segments] at hprefix
          rcases Nat.lt_or_eq_of_le hk with hlt | rfl
          · exact hback (by rw [segments]; exact hlt)
          · obtain rfl : g = ⟨node, !s'.early⟩ :=
              Option.some.inj (hg.symm.trans (getElem?_length_of_finished hprefix))
            obtain ⟨post, hpost⟩ := hprefix
            obtain ⟨hset, rfl⟩ := statement hst
            have hs : s.IsSealed := ⟨hset, by simpa using hcomplete⟩
            have hfront : r.1.take (s.segments.length + 1) = (s.close none).segments.reverse := by
              rw [segments, ← hpost]
              exact List.take_left' (by simp)
            exact ⟨s.rest, hfront ▸ severed_of_isSealed hs hw (hp hs)⟩
      | fillers before after segments solid =>
          rw [segments] at hprefix
          rcases Nat.lt_or_ge k s.flush.segments.length with hlt | hge
          · have hno := isStatement_of_mem_flush before hprefix hg hk hlt
            simp [hst] at hno
          · exact hback (by rw [segments]; exact hge)

/-! ## Stopping at a statement that is known -/

/-- The moves do not depend on where the run may stop. -/
theorem Moves.step {s s' : State} (hm : Moves s s') : step (fun _ => none) s = .next s' := by
  cases hm with
  | settle settled => exact step_of_isSettled settled
  | skip open_ lexed filler => exact step_of_filler open_ lexed filler
  | act open_ stack solid => exact step_of_stack_cons open_ stack solid
  | start stack lexed keyword named =>
      rw [step_of_stack_nil stack (by simp [Solid, lexed, keyword, TokenKind.isFiller]), lexed,
        atTop_keyword keyword named]
  | stray stack lexed filler keyword =>
      rw [step_of_stack_nil stack (by simp [Solid, lexed, filler]), lexed,
        atTop_of_ne_keyword keyword]

/-- A run is one to the end of the text, or stops where the parse of the rest goes on with what it
has. -/
theorem Ends.resume {resume : Nat → Option Nat} {s : State} {r : List Segment × Option Nat}
    (h : Ends resume s r) :
    (r.2 = none ∧ Ends (fun _ => none) s r) ∨
      ∃ x u, s.rest = x ++ u ∧ r.2.isSome = true ∧ resume (s.pos + x.size) = r.2 ∧
        Ends (fun _ => none) s (r.1 ++ (Tree.parse u).segments, none) := by
  induction h with
  | @done s segs resumed hd =>
      obtain ⟨hs, rfl, ⟨hr, rfl⟩ | ⟨t, rest, hl, hk, hres, hsome⟩⟩ := step_eq_done hd
      · refine .inl ⟨rfl, .done ?_⟩
        rw [step_of_stack_nil hs (by simp [Solid, hr]), hr]
        rfl
      · refine .inr ⟨[], s.rest, rfl, hsome, hres, ?_⟩
        exact ends_of_stack_nil hs (by simp [Solid, hl, hk, TokenKind.isFiller])
  | @next s s' r hn _ ih =>
      have hm := moves_of_step hn
      rcases ih with ⟨hnone, hends⟩ | ⟨x, u, hrest, hsome, hres, hends⟩
      · exact .inl ⟨hnone, .next hm.step hends⟩
      · rcases hm.reads with ⟨hr, hpos, -⟩ | ⟨t, hl, hpos, -⟩
        · exact .inr ⟨x, u, hr ▸ hrest, hsome, hpos ▸ hres, .next hm.step hends⟩
        · refine .inr ⟨t.text ++ x, u, ?_, hsome, ?_, .next hm.step hends⟩
          · rw [← (append_of_lex hl).1, hrest, List.append_assoc]
          · rw [Text.size_append, ← Nat.add_assoc]
            exact hpos ▸ hres

end Machine

namespace Tree

/-- What follows a complete statement, beyond the first character, does not change the segments up
to it. -/
theorem segments_parse_of_complete {p x x' : Text} {k : Nat} {g : Segment}
    (hg : (parse (p ++ x)).segments[k]? = some g) (hc : g.isCompleteStatement = true)
    (hp : Segment.texts ((parse (p ++ x)).segments.take (k + 1)) = p)
    (hx : x'.head? = x.head?) :
    (parse (p ++ x')).segments =
      (parse (p ++ x)).segments.take (k + 1) ++ (parse x').segments := by
  obtain ⟨y, -, w, hrest, hends⟩ := (ends_parse (p ++ x)).exists_severed
    (Machine.wellFormed_init 0 _) (fun hs => by cases hs.1) hg hc (Nat.zero_le k)
  have hends : ∀ y', y'.head? = y.head? → (parse (w ++ y')).segments =
      (parse (p ++ x)).segments.take (k + 1) ++ (parse y').segments :=
    fun y' hy => segments_eq_of_ends (hends y' hy)
  have hrest : p ++ x = w ++ y := hrest
  have hxy : x = y := by
    have htexts := congrArg Segment.texts (hends y rfl)
    rw [Segment.texts_append, texts_parse, texts_parse, hp, ← hrest] at htexts
    exact List.append_cancel_left htexts
  subst hxy
  obtain rfl := List.append_cancel_right hrest
  exact hends x' hx

end Tree

end BibStyle
