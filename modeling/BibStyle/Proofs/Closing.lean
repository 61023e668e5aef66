import BibStyle.Proofs.Conformance
import BibStyle.Proofs.Restart

/-!
# What closes a statement early

A statement that is not complete was closed by what follows it. That is a keyword or the end of the
text, in front of which every open node is closed; so the next segment is a statement, or there is
none. The one exception is a pattern that is not closed: inside its braces a keyword is told from a
word by fewer characters than outside, so that what closes the statement may turn out to be the
front of a longer word, which starts a stretch of unexpected tokens (`Tree.next_of_not_complete`).

Along a run, once something in the open segment is closed early, the keyword lies ahead
(`Halted`): from then on nothing is read until the segment is closed, except the tokens of a stretch
in the header of the statement.
-/

namespace BibStyle

open Node

/-- Only a macro has a pattern. -/
theorem Command.eq_macroDef {command : Command} {f : Field} {cls : Class}
    (h : Item.group f cls ∈ command.items) (hm : cls.mode = .pattern) : command = .macroDef := by
  cases command <;> simp [items] at h
  case macroDef => rfl
  all_goals
    rw [h.2] at hm
    cases hm

namespace Machine

/-- A keyword is next, or the end of the text. -/
def Halts (m : Mode) (t : Text) : Prop := ∀ look ∈ lex m t, look.1.kind = .keyword

theorem halts_of_kind {m : Mode} {t : Text}
    (h : ((lex m t).map (·.1.kind)).getD .keyword = .keyword) : Halts m t := by
  intro look hlook
  rw [Option.mem_def.1 hlook] at h
  exact h

theorem Halts.solid {m : Mode} {t : Text} (h : Halts m t) : Solid (lex m t) := by
  intro look hlook
  rw [h look hlook]
  rfl

/-- Where a keyword is next, every open node decides as it does on a keyword. -/
theorem Halts.decision {s : State} (h : Halts s.mode s.rest) (f : Frame) :
    s.decision f = f.action (some .keyword) := by
  rw [State.decision, Frame.action_eq_some]
  cases hlex : lex s.mode s.rest with
  | none => rfl
  | some look => rw [Option.map_some, Option.getD_some, h look hlex]

/-- What is closed early is closed by a keyword or the end of the text, or is given up for a
stretch of unexpected tokens. -/
theorem Frame.action_early {f : Frame} {kind : Option TokenKind}
    (h : (f.action kind).early false = true) : kind.getD .keyword = .keyword ∨
      ∃ found, f.action kind = .recover found ⟨.normal, false, none⟩ true := by
  rw [action_eq_some] at h ⊢
  generalize kind.getD .keyword = k at h ⊢
  cases f with
  | statement command items slot =>
      cases slot with
      | none =>
          by_cases hl : k = .lbrace
          · subst hl
            rcases items with - | ⟨f | ⟨f, cls⟩ | f, items⟩
            · exact .inr ⟨.lbrace, rfl⟩
            all_goals cases h
          · by_cases hk : k = .keyword
            · exact .inl hk
            · exact .inr ⟨k, itemAction_of_ne command items hl hk⟩
      | some slot =>
          obtain ⟨f, cls, filled⟩ := slot
          cases cls <;> cases filled <;> cases k <;> first | exact .inl rfl | cases h
  | list f => cases k <;> first | exact .inl rfl | cases h
  | block f => cases k <;> first | exact .inl rfl | cases h
  | ref => cases k <;> cases h
  | unexpected found recovery depth =>
      simp only [action] at h
      rcases unexpectedAction_cases found recovery depth (some k) with ⟨-, hk⟩ |
        ⟨k, -, -, ⟨-, ha⟩ | ⟨-, ha⟩⟩
      · exact .inl (by simpa using hk)
      · rw [ha] at h
        cases h
      · rw [ha] at h
        cases h

/-! ## What lies ahead once something is closed early -/

/-- Something in the open segment has been closed early. -/
inductive Halted (s : State) : Prop where
  /-- The rest of the statement is given up for a stretch of unexpected tokens. -/
  | stretch {found depth fs}
      (frames : s.frames = .unexpected found ⟨.normal, false, none⟩ depth :: fs)
  | ahead (halts : Halts s.mode s.rest)
  /-- The pattern of a macro is left at what is a keyword between its braces. -/
  | group {items ns} (halts : Halts .pattern s.rest) (stack : s.stack =
      [⟨.statement .macroDef items none, .marker (.unterminated .group) :: ns⟩])

/-- In front of a keyword the mode changes where the group with a pattern is left. -/
theorem Nested.eq_slot {early : Bool} {f : Frame} {fs : List Frame} (h : Nested early (f :: fs))
    (hm : f.mode = .pattern)
    (hk : modeOf ((f.action (some .keyword)).frames (f :: fs)) = .normal) :
    fs = [] ∧ ∃ command items slot, f = .statement command items (some slot) ∧
      slot.cls.mode = .pattern := by
  cases h with
  | @statement command items slot =>
      cases slot with
      | none => cases hm
      | some slot => exact ⟨rfl, command, items, slot, rfl, hm⟩
  | @group found depth command items slot =>
      -- the stretch is closed first, and the group is still open
      have hmode : slot.cls.mode = .normal := hk
      rw [show slot.cls.mode = .pattern from hm] at hmode
      cases hmode
  | _ => cases hm

/-- What is known of every state of a run. -/
structure Tracked (s : State) : Prop where
  wellFormed : WellFormed s
  sound : Sound s
  halted : s.early = true → s.stack ≠ [] → Halted s

namespace Tracked

variable {s : State} {f : Frame} {ns : List Node} {below : List Level}

/-- In front of a keyword no node reads on; only leaving a pattern changes what is ahead. -/
theorem halted_of_halts (h : Tracked s) (hs : s.stack = ⟨f, ns⟩ :: below)
    (hhalts : Halts s.mode s.rest) :
    Halted ((s.decision f).run s (lex s.mode s.rest)) := by
  have hfs := frames_of_stack_cons hs
  have hmode := State.mode_of_frames_cons hfs
  have hn := h.wellFormed.nested
  rw [hfs] at hn
  rw [hhalts.decision f]
  have ht := f.takes_action_keyword
  have hl : (f.action (some .keyword)).takes = true → (lex s.mode s.rest).isSome = true := by
    simp [ht]
  have hframes := Action.frames_run hfs hl
  have hrest := Action.rest_run_of_not_takes s (lex s.mode s.rest) ht
  have hahead : modeOf ((f.action (some .keyword)).frames (f :: below.map Level.frame)) = s.mode →
      Halted ((f.action (some .keyword)).run s (lex s.mode s.rest)) := by
    intro hm
    refine .ahead ?_
    rw [State.mode_eq, hframes, hm, hrest]
    exact hhalts
  rcases hn.modeOf_action ht with hsame | ⟨hnormal, -⟩
  · exact hahead (hsame.trans hmode.symm)
  · cases hm : s.mode with
    | normal => exact hm ▸ hahead (hnormal.trans hm.symm)
    | pattern =>
        rw [hm] at hmode hhalts
        obtain ⟨hnil, command, items, slot, rfl, hslot⟩ := hn.eq_slot hmode.symm hnormal
        obtain rfl := List.map_eq_nil_iff.1 hnil
        obtain ⟨passed, hitems, -⟩ := (h.sound.stacked hs).1
        have hmem : Item.group slot.field slot.cls ∈ command.items := by simp [← hitems]
        obtain rfl := Command.eq_macroDef hmem hslot
        refine .group (hrest ▸ hhalts) (Action.stack_run (t := ⟨.keyword, []⟩) hs ?_)
        simp [ht]

/-- A stretch in the header of a statement reads on up to a keyword. -/
theorem halted_of_not_halts (h : Tracked s) (hset : s.isSettled = false)
    (hs : s.stack = ⟨f, ns⟩ :: below) (hhalts : ¬Halts s.mode s.rest)
    (hearly : (s.decision f).early s.early = true) :
    Halted ((s.decision f).run s (lex s.mode s.rest)) := by
  have hfs := frames_of_stack_cons hs
  have hframes := Action.frames_run (a := s.decision f) hfs isSome_lex_of_takes
  cases he : s.early with
  | false =>
      rw [he] at hearly
      rcases Frame.action_early hearly with hk | ⟨found, ha⟩
      · exact absurd (halts_of_kind hk) hhalts
      · have hstretch : ((s.decision f).run s (lex s.mode s.rest)).frames =
            .unexpected found ⟨.normal, false, none⟩ 0 :: f :: below.map Level.frame := by
          rw [hframes, State.decision, ha, Action.frames]
        exact .stretch hstretch
  | true =>
      cases h.halted he (by simp [hs]) with
      | ahead halts => exact absurd halts hhalts
      | group halts stack =>
          obtain ⟨hnot, -⟩ := waits_of_not_settled hset (frames_of_stack_cons stack) _ _ rfl
          rw [he] at hnot
          cases hnot
      | @stretch found depth fs frames =>
          obtain ⟨rfl, -⟩ := List.cons.inj (hfs.symm.trans frames)
          rcases Frame.unexpectedAction_cases found ⟨.normal, false, none⟩ depth
              ((lex s.mode s.rest).map (·.1.kind)) with ⟨-, hk⟩ | ⟨k, -, -, ⟨hstop, -⟩ | ⟨-, ha⟩⟩
          · refine absurd (halts_of_kind ?_) hhalts
            rcases hk with hk | hk <;> rw [hk] <;> rfl
          · cases hstop
          · rw [State.decision, Frame.action, ha, Action.frames] at hframes
            rw [State.decision, Frame.action, ha]
            exact .stretch hframes

theorem init (pos : Nat) (text : Text) : Tracked (.init pos text) :=
  ⟨wellFormed_init pos text, sound_init pos text, by simp [State.init]⟩

/-- What is known of a state is known after a move. -/
theorem moves {s' : State} (h : Tracked s) (hm : Moves s s') : Tracked s' := by
  refine ⟨h.wellFormed.moves hm, h.sound.moves h.wellFormed hm, ?_⟩
  intro hearly hne
  cases hm with
  | settle settled =>
      obtain ⟨command, items, hfs, -⟩ := h.wellFormed.frames_of_isSettled settled
      simp [State.stack_eq_nil_iff, hfs] at hne
  | @skip t rest open_ lexed filler =>
      cases h.halted hearly hne with
      | stretch frames => exact .stretch frames
      | ahead halts =>
          have hk := halts _ lexed
          rw [hk] at filler
          cases filler
      | group halts stack =>
          obtain ⟨hnot, -⟩ := waits_of_not_settled open_ (frames_of_stack_cons stack) _ _ rfl
          rw [show s.early = true from hearly] at hnot
          cases hnot
  | @act f ns below open_ stack solid =>
      rw [Action.early_run] at hearly
      by_cases hhalts : Halts s.mode s.rest
      · exact h.halted_of_halts stack hhalts
      · exact h.halted_of_not_halts open_ stack hhalts hearly
  | start stack lexed keyword named => simp [State.start] at hearly
  | stray stack lexed filler keyword => simp [State.recover] at hearly

end Tracked

/-- A statement that is not complete was settled with what closed it ahead. -/
theorem Ends.exists_halted {s : State} {r : List Segment × Option Nat} {k : Nat} {g : Segment}
    (h : Ends (fun _ => none) s r) (ht : Tracked s) (hg : r.1[k]? = some g)
    (hst : g.isStatement = true) (hc : g.complete = false) (hk : s.segments.length ≤ k) :
    ∃ u ns command items, Tracked u ∧ Halted u ∧ u.stack = [⟨.statement command items none, ns⟩] ∧
      g.node = .branch (.statement command) none none ns.reverse ∧
      Ends (fun _ => none) (u.close none) r ∧ (u.close none).segments.length = k + 1 := by
  induction h with
  | @done s segs resumed hd =>
      obtain ⟨hs, rfl, -⟩ := step_eq_done hd
      have hlt : k < s.flush.segments.length := by
        simpa using (List.getElem?_eq_some_iff.1 hg).1
      have hno := isStatement_of_mem_flush hs List.prefix_rfl hg hk hlt
      simp [hst] at hno
  | @next s s' r hn run ih =>
      have hm := moves_of_step hn
      have ht' := ht.moves hm
      have hprefix := run.segments_prefix ht'.wellFormed
      cases hm.grows ht.wellFormed with
      | same segments _ => exact ih ht' hg (segments ▸ hk)
      | finish node before after segments statement =>
          rw [segments] at hprefix
          rcases Nat.lt_or_eq_of_le hk with hlt | rfl
          · exact ih ht' hg (by rw [segments]; exact hlt)
          · obtain rfl : g = ⟨node, !s'.early⟩ :=
              Option.some.inj (hg.symm.trans (getElem?_length_of_finished hprefix))
            obtain ⟨hset, rfl⟩ := statement hst
            obtain ⟨command, items, ns, hs, -⟩ := ht.wellFormed.stack_of_isSettled hset
            have hearly : s.early = true := by simpa using hc
            refine ⟨s, ns, command, items, ht, ht.halted hearly before, hs, ?_, run, ?_⟩
            · rw [s.segments_close_singleton none hs] at segments
              exact congrArg Segment.node (List.cons.inj segments).1.symm
            · rw [segments, List.length_cons]
      | fillers before after segments solid =>
          rw [segments] at hprefix
          rcases Nat.lt_or_ge k s.flush.segments.length with hlt | hge
          · have hno := isStatement_of_mem_flush before hprefix hg hk hlt
            simp [hst] at hno
          · exact ih ht' hg (by rw [segments]; exact hge)

/-! ## The segment that follows -/

/-- A stretch of unexpected tokens takes the token it is opened at. -/
theorem Ends.reads_fresh {s : State} {t : Token} {rest : Text} {r : List Segment × Option Nat}
    (h : Ends (fun _ => none) s r) (hw : WellFormed s) (hfresh : s.isFresh = true)
    (hl : lex s.mode s.rest = some (t, rest)) :
    ∃ ts, leavesAll (r.1.map (·.node)) = s.tokens ++ t :: ts := by
  obtain ⟨found, recovery, fs, t', rest', hfs, hl', -, hsolid, -⟩ := hw.fresh hfresh
  obtain ⟨⟨f, ns⟩, below, hs, rfl, -⟩ := List.map_eq_cons_iff.1 hfs
  rw [show recovery.mode = s.mode from (State.mode_of_frames_cons hfs).symm, hl] at hl'
  cases hl'
  have hset : s.isSettled = false := by
    simp [State.isSettled, hs]
  obtain ⟨g, ha, -⟩ := hw.action_of_isFresh hfresh hfs
  have hstep : step (fun _ => none) s = .next ((Action.take g none).run s (some (t, rest))) := by
    rw [step_of_stack_cons hset hs (by simpa [Solid, hl] using hsolid), ha, hl]
  cases h with
  | done hd =>
      rw [hstep] at hd
      cases hd
  | next hn run =>
      rw [hstep] at hn
      cases hn
      obtain ⟨ts, _, -, -, hleaves⟩ := run.reads
      refine ⟨ts.map Prod.snd, ?_⟩
      rw [hleaves, Action.tokens_run_of_takes s rest rfl, List.append_assoc, List.singleton_append]

/-- Between statements the next token goes to the next segment. -/
theorem Ends.reads_top {s : State} {t : Token} {rest : Text} {r : List Segment × Option Nat}
    (h : Ends (fun _ => none) s r) (hw : WellFormed s) (hs : s.stack = [])
    (hl : lex .normal s.rest = some (t, rest)) (hf : t.kind.isFiller = false) :
    ∃ ts, leavesAll (r.1.map (·.node)) = s.tokens ++ t :: ts := by
  have hstep : step (fun _ => none) s = atTop (fun _ => none) s (some (t, rest)) := by
    rw [step_of_stack_nil hs (by simpa [Solid, hl] using hf), hl]
  by_cases hk : t.kind = .keyword
  · obtain ⟨command, hc⟩ := ofWord?_of_keyword hl hk
    rw [atTop_keyword hk hc] at hstep
    cases h with
    | done hd =>
        rw [hstep] at hd
        cases hd
    | next hn run =>
        rw [hstep] at hn
        cases hn
        obtain ⟨ts, _, -, -, hleaves⟩ := run.reads
        refine ⟨ts.map Prod.snd, ?_⟩
        simp [hleaves, State.start]
  · rw [atTop_of_ne_keyword hk] at hstep
    cases h with
    | done hd =>
        rw [hstep] at hd
        cases hd
    | next hn run =>
        have hw' := hw.moves (moves_of_step hn)
        rw [hstep] at hn
        cases hn
        obtain ⟨ts, hleaves⟩ :=
          run.reads_fresh hw' rfl (by simpa [State.recover, Frame.mode] using hl)
        exact ⟨ts, by simpa [State.recover] using hleaves⟩

/-- Between statements, the next segment that is no filler is one of the parse from there on. -/
theorem Ends.find?_drop {s : State} {r : List Segment × Option Nat}
    (h : Ends (fun _ => none) s r) (hs : s.stack = [])
    (hp : ∀ t ∈ s.pending, t.kind.isFiller = true) (hsolid : Solid (lex .normal s.rest)) :
    (r.1.drop s.segments.length).find? (!·.node.kind.isFiller) =
      (Tree.parse s.rest).segments.find? (!·.node.kind.isFiller) := by
  have hfillers : (s.pending.map State.fillerSegment).reverse.find?
      (!·.node.kind.isFiller) = none := by
    rw [List.find?_eq_none]
    intro g hg
    obtain ⟨t, ht, rfl⟩ := List.mem_map.1 (List.mem_reverse.1 hg)
    simpa [State.fillerSegment, Node.ofToken, Node.kind, Kind.isFiller] using hp t ht
  rw [h.unique (ends_of_stack_nil hs hsolid), State.segments_flush_of_stack_nil hs,
    List.reverse_append, List.append_assoc, List.drop_left' (by simp), List.find?_append, hfillers]
  rfl

end Machine

theorem Kind.isFiller_of_isA_statement {k : Kind} (h : k.isA .statement = true) :
    k.isFiller = false := by
  cases k with
  | token k => cases h
  | node k => rfl

/-- What stands in a file has a first leaf, which tells what it is. -/
theorem Node.InFile.leaves_eq {n : Node} (h : n.InFile) (hn : n.Schema) :
    ∃ t ts, n.leaves = t :: ts ∧
      ((n.isStatement = true ∧ t.kind = .keyword) ∨ (n.IsError ∧ t.kind ≠ .keyword) ∨
        t.kind.isFiller = true) := by
  have hleaf : ∀ {m : Node} {k : TokenKind}, m.IsToken k → ∃ text, m.leaves = [⟨k, text⟩] := by
    rintro (⟨k', f, text⟩ | ⟨k', f, e, ns⟩) k ⟨hkind, -⟩
    · obtain rfl : k' = k := Kind.token.inj hkind
      exact ⟨text, leaves_leaf ..⟩
    · cases hkind
  cases h with
  | statement hst _ =>
      obtain ⟨k, ns, c, hchildren, -, hk, -⟩ := hn.children_statement hst
      obtain ⟨text, hleaves⟩ := hleaf hk
      cases n with
      | leaf => cases hchildren
      | branch kind f e ms =>
          obtain rfl : ms = k :: ns := hchildren
          refine ⟨⟨.keyword, text⟩, leavesAll ns, ?_, .inl ⟨hst, rfl⟩⟩
          rw [leaves_branch, leavesAll_cons, hleaves, List.singleton_append]
  | error herror hne =>
      cases hn with
      | @unexpected n ns found first solid tokens =>
          obtain ⟨k, hk, hkey⟩ := tokens _ List.mem_cons_self
          obtain ⟨text, hleaves⟩ := hleaf hk
          refine ⟨⟨k, text⟩, leavesAll ns, ?_, .inr (.inl ⟨herror, hkey⟩)⟩
          rw [leaves_branch, leavesAll_cons, hleaves, List.singleton_append]
      | missing => exact absurd rfl hne
      | openGroup => exact absurd rfl hne
      | _ => cases herror.1
  | filler hfiller =>
      cases n with
      | leaf k f text => exact ⟨_, _, leaves_leaf .., .inr (.inr hfiller.1)⟩
      | branch => cases hfiller.1

namespace Tree

/-- The first token of a text, if it is no filler, tells what the first segment is. -/
theorem find?_segments {t rest : Text} {tok : Token} {h : Segment}
    (hl : lex .normal t = some (tok, rest)) (hf : tok.kind.isFiller = false)
    (hh : (parse t).segments.find? (!·.node.kind.isFiller) = some h) :
    (h.isStatement = true ∧ tok.kind = .keyword) ∨
      (h.node.IsError ∧ tok.kind ≠ .keyword ∧ h.node.leaves.head? = some tok) := by
  obtain ⟨ts, hts⟩ := (ends_parse t).reads_top (Machine.wellFormed_init 0 t) rfl hl hf
  rw [Machine.State.tokens_init, List.nil_append] at hts
  cases hsegs : (parse t).segments with
  | nil => simp [hsegs] at hts
  | cons g gs =>
      obtain ⟨hall, hfile⟩ := schema_segments t g.node (by simp [hsegs])
      obtain ⟨tok', us, hleaves, hkind⟩ := hfile.leaves_eq hall.self
      rw [hsegs, List.map_cons, leavesAll_cons, hleaves] at hts
      obtain ⟨rfl, -⟩ := List.cons.inj hts
      rw [hsegs] at hh
      have hfirst : g.node.kind.isFiller = false → g = h := by
        intro hsolid
        rw [List.find?_cons_of_pos (by simp [hsolid])] at hh
        exact Option.some.inj hh
      rcases hkind with ⟨hst, hk⟩ | ⟨herror, hk⟩ | hfiller
      · obtain rfl := hfirst (Kind.isFiller_of_isA_statement hst)
        exact .inl ⟨hst, hk⟩
      · obtain rfl := hfirst (by rw [herror.1]; rfl)
        exact .inr ⟨herror, hk, by rw [hleaves]; rfl⟩
      · rw [hf] at hfiller
        cases hfiller

/-- A statement that is not complete is followed by a statement, if by more than fillers, unless it
is a macro with an open pattern in front of a word that starts like a keyword. -/
theorem next_of_not_complete {t : Text} {k : Nat} {g h : Segment}
    (hg : (parse t).segments[k]? = some g) (hst : g.isStatement = true) (hc : g.complete = false)
    (hh : ((parse t).segments.drop (k + 1)).find? (!·.node.kind.isFiller) = some h) :
    h.isStatement = true ∨
      (g.node.kind = .node (.statement .macroDef) ∧
        g.node.children.getLast? = some (.marker (.unterminated .group)) ∧
        h.node.kind = .node .error ∧
        ∃ tok ∈ h.node.leaves.head?, tok.kind.isSymbol = true ∧
          ∃ w x u, tok.text = w ++ x :: u ∧ (Command.ofWord? w).isSome = true ∧
            x ∈ [':', '<', '>', '&', '$']) := by
  obtain ⟨s, ns, command, items, ht, hhalted, hs, hnode, hends, hlength⟩ :=
    (ends_parse t).exists_halted (Machine.Tracked.init 0 t) hg hst hc (Nat.zero_le k)
  have hnext : Machine.Solid (lex .normal s.rest) →
      (parse s.rest).segments.find? (!·.node.kind.isFiller) = some h := by
    intro hsolid
    have hp : ∀ u ∈ (s.close none).pending, u.kind.isFiller = true := by
      simpa using ht.sound.pending
    have hfind := hends.find?_drop (s.stack_close none hs) hp (by simpa using hsolid)
    rwa [hlength, hh, s.rest_close, eq_comm] at hfind
  have hkeyword : Machine.Halts .normal s.rest → h.isStatement = true := by
    intro hhalts
    have hfind := hnext hhalts.solid
    cases hl : lex .normal s.rest with
    | none =>
        rw [lex_eq_none_iff.1 hl] at hfind
        cases hfind
    | some look =>
        obtain ⟨tok, rest⟩ := look
        have hk : tok.kind = .keyword := hhalts _ hl
        rcases find?_segments hl (by rw [hk]; rfl) hfind with ⟨hst, -⟩ | ⟨-, hne, -⟩
        · exact hst
        · exact absurd hk hne
  cases hhalted with
  | stretch frames =>
      rw [Machine.frames_of_stack_cons hs] at frames
      cases frames
  | ahead halts =>
      rw [Machine.State.mode_of_frames_cons (Machine.frames_of_stack_cons hs)] at halts
      exact .inl (hkeyword halts)
  | group halts stack =>
      rw [hs] at stack
      cases stack
      cases hl : lex .pattern s.rest with
      | none =>
          have hnil : lex .normal s.rest = none := lex_eq_none_iff.2 (lex_eq_none_iff.1 hl)
          exact .inl (hkeyword (by simp [Machine.Halts, hnil]))
      | some look =>
          obtain ⟨tok, rest⟩ := look
          have hk : tok.kind = .keyword := halts _ hl
          rcases lex_normal_or_longer hl hk with hl' | ⟨tok', rest', x, u, hl', hsymbol, htext, hx⟩
          · exact .inl (hkeyword (by simp [Machine.Halts, hl', hk]))
          · have hsolid := TokenKind.isFiller_of_isSymbol hsymbol
            have hfind := hnext (by simpa [Machine.Solid, hl'] using hsolid)
            rcases find?_segments hl' hsolid hfind with ⟨-, hk'⟩ | ⟨herror, -, hhead⟩
            · rw [hk'] at hsymbol
              cases hsymbol
            · obtain ⟨c, hword⟩ := ofWord?_of_keyword hl hk
              refine .inr ⟨by rw [hnode]; rfl, ?_, herror.1, tok', hhead, hsymbol,
                tok.text, x, u, htext, by simp [hword], hx⟩
              simp [hnode, children]

/-- The name of a function is never closed. -/
theorem next_of_not_complete_open_name :
    ∃ g h, (parse "FUNCTION \x7bf READ".toList).segments[0]? = some g ∧ g.isStatement = true ∧
      g.complete = false ∧ ((parse "FUNCTION \x7bf READ".toList).segments.drop 1).find?
        (!·.node.kind.isFiller) = some h ∧ h.isStatement = true := by
  have hsegs : (parse "FUNCTION \x7bf READ".toList).segments =
      [⟨.branch (.statement .function) none none
          [.leaf .keyword none "FUNCTION".toList, .leaf .whitespace none [' '],
            .leaf .lbrace none ['\x7b'], .leaf .identifier (some .name) ['f'],
            .marker (.unterminated .group)], false⟩,
        ⟨.leaf .whitespace none [' '], false⟩,
        ⟨.branch (.statement .read) none none [.leaf .keyword none "READ".toList], true⟩] := by
    decide +kernel
  refine ⟨_, _, by rw [hsegs]; rfl, rfl, rfl, by rw [hsegs]; rfl, ?_⟩
  refine (next_of_not_complete (t := "FUNCTION \x7bf READ".toList) (k := 0) (by rw [hsegs]; rfl)
    rfl rfl (by rw [hsegs]; rfl)).resolve_right ?_
  rintro ⟨hkind, -⟩
  cases hkind

/-- Between the braces of a pattern `READ` is a keyword, outside of them `READ:x` is one word. -/
theorem not_isStatement_of_open_pattern :
    ∃ g h, (parse "MACRO \x7bREAD:x".toList).segments[0]? = some g ∧ g.isStatement = true ∧
      g.complete = false ∧ ((parse "MACRO \x7bREAD:x".toList).segments.drop 1).find?
        (!·.node.kind.isFiller) = some h ∧ h.isStatement = false := by
  have hsegs : (parse "MACRO \x7bREAD:x".toList).segments =
      [⟨.branch (.statement .macroDef) none none
          [.leaf .keyword none "MACRO".toList, .leaf .whitespace none [' '],
            .leaf .lbrace none ['\x7b'], .marker (.unterminated .group)], false⟩,
        ⟨.branch .error none (some (.unexpected (.token .identifier)))
          [.leaf .identifier none "READ:x".toList], false⟩] := by
    decide +kernel
  exact ⟨_, _, by rw [hsegs]; rfl, rfl, rfl, by rw [hsegs]; rfl, rfl⟩

end Tree

end BibStyle
