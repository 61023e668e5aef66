import BibStyle.Proofs.Steps

/-!
# The shape of the stack

Only few nodes can be open inside one another. `Nested early fs` lists the stacks of frames that
occur, `early` saying whether the current segment has been closed early somewhere. Two facts are
carried along: a stretch of unexpected tokens in the header of a statement comes with `early`, and
one inside a group is read in the mode of the group.

A node for unexpected tokens is opened before its first token is taken. `WellFormed` adds that such
a node takes the next token, so none is left empty.
-/

namespace BibStyle

namespace Machine

/-- The frames that can be open inside one another, innermost first. -/
inductive Nested (early : Bool) : List Frame → Prop where
  | top : Nested early []
  | statement {command items slot} : Nested early [.statement command items slot]
  | list {f command items} : Nested early [.list f, .statement command items none]
  | block {f command items} : Nested early [.block f, .statement command items none]
  | inner {f g below} (h : Nested early (.block f :: below)) :
      Nested early (.block g :: .block f :: below)
  | ref {f below} (h : Nested early (.block f :: below)) : Nested early (.ref :: .block f :: below)
  | between {found depth} : Nested early [.unexpected found ⟨.normal, false, none⟩ depth]
  | header {found depth command items} (h : early = true) :
      Nested early [.unexpected found ⟨.normal, false, none⟩ depth, .statement command items none]
  | group {found depth command items slot} :
      Nested early [.unexpected found
        ⟨slot.cls.mode, true, if slot.filled then none else some slot.cls⟩ depth,
        .statement command items (some slot)]
  | inList {found depth f command items} :
      Nested early [.unexpected found ⟨.normal, true, some .identifier⟩ depth, .list f,
        .statement command items none]

namespace Nested

variable {early : Bool}

/-- Closing something early keeps the shape. -/
theorem closeEarly {fs : List Frame} (h : Nested early fs) : Nested true fs := by
  induction h with
  | top => exact .top
  | statement => exact .statement
  | list => exact .list
  | block => exact .block
  | inner _ ih => exact .inner ih
  | ref _ ih => exact .ref ih
  | between => exact .between
  | header => exact .header rfl
  | group => exact .group
  | inList => exact .inList

/-- What is left when the innermost node is closed has a shape again. -/
theorem tail {fs : List Frame} (h : Nested early fs) : Nested early fs.tail := by
  cases h with
  | top => exact .top
  | statement => exact .top
  | list => exact .statement
  | block => exact .statement
  | inner h => exact h
  | ref h => exact h
  | between => exact .top
  | header => exact .statement
  | group => exact .statement
  | inList => exact .list

/-- Blocks are read in normal mode, so a token of a pattern never comes up in one, and every other
token has a place there. -/
theorem action {f : Frame} {fs : List Frame} {kind : Option TokenKind}
    (h : Nested early (f :: fs)) (hk : f.mode = .normal → kind ≠ some .pattern)
    (hf : ∀ k ∈ kind, k.isFiller = false) :
    Nested ((f.action kind).early early) ((f.action kind).frames (f :: fs)) := by
  cases h with
  | @statement command items slot =>
      cases slot with
      | none =>
          rcases kind with - | kind
          · rw [Frame.action_none]
            rcases items with - | ⟨f | ⟨f, cls⟩ | f, items⟩ <;> exact .statement
          · rcases items with - | ⟨f | ⟨f, cls⟩ | f, items⟩ <;> cases kind <;>
              first | exact .statement | exact .header rfl | exact .list | exact .block
      | some slot =>
          rcases kind with - | kind
          · exact .statement
          · obtain ⟨f, cls, filled⟩ := slot
            cases cls <;> cases filled <;> cases kind <;>
              first | exact .statement | exact .group
  | list =>
      rcases kind with - | kind
      · exact .statement
      · cases kind <;> first | exact .statement | exact .list | exact .inList
  | @block g command items =>
      rcases kind with - | kind
      · exact .statement
      · cases kind <;>
          first
          | exact .statement
          | exact .block
          | exact .inner .block
          | exact .ref .block
          | exact absurd rfl (hk rfl)
          | exact absurd (hf _ rfl) (by decide)
  | @inner g g' below h =>
      rcases kind with - | kind
      · exact h.closeEarly
      · cases kind <;>
          first
          | exact h
          | exact h.closeEarly
          | exact .inner h
          | exact .inner (.inner h)
          | exact .ref (.inner h)
          | exact absurd rfl (hk rfl)
          | exact absurd (hf _ rfl) (by decide)
  | ref h =>
      rcases kind with - | kind
      · exact h
      · cases kind <;> exact h
  | @between found depth =>
      rcases kind with - | kind
      · exact .top
      · cases kind <;> first | exact .top | exact .between
  | @header found depth command items he =>
      rcases kind with - | kind
      · exact .statement
      · cases kind <;> first | exact .statement | exact .header he
  | @group found depth command items slot =>
      simp only [Frame.action]
      rcases Frame.unexpectedAction_cases found _ depth kind with ⟨h, -⟩ |
        ⟨k, -, -, ⟨-, h⟩ | ⟨-, h⟩⟩ <;> rw [h]
      · exact .statement
      · exact .statement
      · exact .group
  | @inList found depth g command items =>
      simp only [Frame.action]
      rcases Frame.unexpectedAction_cases found _ depth kind with ⟨h, -⟩ |
        ⟨k, -, -, ⟨-, h⟩ | ⟨-, h⟩⟩ <;> rw [h]
      · exact .list
      · exact .list
      · exact .inList

end Nested

/-! ## Nodes of unexpected tokens that are still empty -/

namespace State

/-- The innermost open node is one for unexpected tokens and has none yet. -/
def isFresh (s : State) : Bool :=
  match s.stack with
  | ⟨.unexpected .., []⟩ :: _ => true
  | _ => false

variable (s : State)

@[simp] theorem isFresh_attach (n : Node) : (s.attach n).isFresh = false := by
  unfold attach
  split
  · simp [isFresh]
  · rename_i h
    simp [isFresh, h]

@[simp] theorem isFresh_setFrame_attach (n : Node) (frame : Frame) :
    ((s.attach n).setFrame frame).isFresh = false := by
  unfold attach
  split
  · simp [isFresh, setFrame]
  · rename_i h
    simp [isFresh, setFrame, h]

@[simp] theorem isFresh_take (field : Option Field) (t : Token) (rest : Text) :
    (s.take field t rest).isFresh = false :=
  isFresh_attach s.flush (.ofToken field t)

@[simp] theorem isFresh_close (fault : Option Fault) : (s.close fault).isFresh = false := by
  unfold close
  split
  · rename_i h
    simp [isFresh, h]
  · split
    · simp [isFresh]
    · simp

@[simp] theorem isFresh_enter_unexpected (found : TokenKind) (recovery : Recovery) (depth : Nat) :
    (s.enter (.unexpected found recovery depth)).isFresh = true := rfl

theorem isFresh_of_frames_cons {f : Frame} {fs : List Frame} (h : s.frames = f :: fs)
    (hf : s.isFresh = true) : ∃ found recovery depth, f = .unexpected found recovery depth := by
  unfold isFresh at hf
  split at hf
  · rename_i found recovery depth below hs
    simp only [frames, hs, List.map_cons, List.cons.injEq] at h
    exact ⟨found, recovery, depth, h.1.symm⟩
  · cases hf

theorem isFresh_of_frames_nil (h : s.frames = []) : s.isFresh = false := by
  have hs : s.stack = [] := List.map_eq_nil_iff.1 h
  simp [isFresh, hs]

end State

/-- Only recovering leaves an empty node open. -/
theorem Action.recover_of_isFresh_run {a : Action} {s : State} {look : Lookahead}
    (hl : a.takes = true → look.isSome = true) (h : (a.run s look).isFresh = true) :
    ∃ found recovery header, a = .recover found recovery header := by
  cases a with
  | take g field =>
      obtain ⟨⟨t, rest⟩, rfl⟩ := Option.isSome_iff_exists.1 (hl rfl)
      simp [run] at h
  | fill e g =>
      obtain ⟨⟨t, rest⟩, rfl⟩ := Option.isSome_iff_exists.1 (hl rfl)
      simp [run] at h
  | descend g child =>
      obtain ⟨⟨t, rest⟩, rfl⟩ := Option.isSome_iff_exists.1 (hl rfl)
      simp [run] at h
  | finish field =>
      obtain ⟨⟨t, rest⟩, rfl⟩ := Option.isSome_iff_exists.1 (hl rfl)
      simp [run] at h
  | abort fault => simp [run] at h
  | stop fault => simp [run] at h
  | lack fault => simp [run] at h
  | abandon fault g =>
      have := State.isFresh_setFrame_attach s (.marker fault) g
      simp only [run, State.mark] at h
      exact absurd (this.symm.trans h) (by simp)
  | recover found recovery header => exact ⟨found, recovery, header, rfl⟩

/-- The shape of the states that occur. -/
structure WellFormed (s : State) : Prop where
  nested : Nested s.early s.frames
  /-- An empty node of unexpected tokens takes the next token. -/
  fresh : s.isFresh = true → ∃ found recovery fs t rest,
    s.frames = .unexpected found recovery 0 :: fs ∧
      lex recovery.mode s.rest = some (t, rest) ∧ t.kind = found ∧ t.kind.isFiller = false ∧
      (Frame.unexpected found recovery 0).action (some t.kind) =
        .take (.unexpected found recovery (Frame.nextDepth 0 found)) none

theorem wellFormed_init (pos : Nat) (text : Text) : WellFormed (.init pos text) where
  nested := .top
  fresh := by
    intro h
    cases h

theorem frames_of_stack_cons {s : State} {frame : Frame} {children : List Node}
    {below : List Level} (h : s.stack = ⟨frame, children⟩ :: below) :
    s.frames = frame :: below.map Level.frame := by
  simp [State.frames, h]

theorem frames_of_stack_nil {s : State} (h : s.stack = []) : s.frames = [] := by
  simp [State.frames, h]

/-- A statement that is settled is the outermost node, and the only one. -/
theorem WellFormed.frames_of_isSettled {s : State} (h : WellFormed s) (hs : s.isSettled = true) :
    ∃ command items, s.frames = [.statement command items none] ∧
      (s.early = true ∨ items = []) := by
  obtain ⟨command, items, below, hfs, hend⟩ := State.isSettled_iff.1 hs
  have hn := h.nested
  rw [hfs] at hn
  cases hn
  exact ⟨command, items, hfs, hend⟩

theorem WellFormed.stack_of_isSettled {s : State} (h : WellFormed s) (hs : s.isSettled = true) :
    ∃ command items ns, s.stack = [⟨.statement command items none, ns⟩] ∧
      (s.early = true ∨ items = []) := by
  obtain ⟨command, items, hfs, hend⟩ := h.frames_of_isSettled hs
  obtain ⟨⟨f, ns⟩, levels, hstack, rfl, hlevels⟩ := List.map_eq_cons_iff.1 hfs
  obtain rfl := List.map_eq_nil_iff.1 hlevels
  exact ⟨command, items, ns, hstack, hend⟩

/-- Every move keeps the shape. -/
theorem WellFormed.moves {s s' : State} (h : WellFormed s) (hm : Moves s s') : WellFormed s' := by
  cases hm with
  | settle settled =>
      refine ⟨?_, by simp⟩
      rw [State.early_close, State.frames_close]
      exact h.nested.tail
  | skip open_ lexed filler =>
      refine ⟨h.nested, ?_⟩
      intro hf
      obtain ⟨found, recovery, fs, t, rest, hfs, hl, -, hk, -⟩ := h.fresh hf
      rw [State.mode_of_frames_cons hfs] at lexed
      obtain ⟨rfl, rfl⟩ := Prod.mk.inj (Option.some.inj (lexed.symm.trans hl))
      simp [hk] at filler
  | @act frame children below open_ stack solid =>
      have hfs := frames_of_stack_cons stack
      have hmode := State.mode_of_frames_cons hfs
      have hl : (s.decision frame).takes = true → _ := isSome_lex_of_takes
      refine ⟨?_, ?_⟩
      · rw [Action.early_run, Action.frames_run hfs hl]
        refine (hfs ▸ h.nested).action ?_ ?_
        · intro hn hp
          obtain ⟨⟨t, rest⟩, hlex, hk⟩ := Option.map_eq_some_iff.1 hp
          rw [hmode, hn] at hlex
          exact kind_ne_pattern_of_lex hlex hk
        · intro k hk
          obtain ⟨⟨t, rest⟩, hlex, rfl⟩ := Option.map_eq_some_iff.1 hk
          exact solid _ hlex
      · intro hf
        obtain ⟨found, recovery, header, ha⟩ := Action.recover_of_isFresh_run hl hf
        obtain ⟨hk, hm, htake⟩ := Frame.action_recover ha
        obtain ⟨⟨t, rest⟩, hlex, rfl⟩ := Option.map_eq_some_iff.1 hk
        refine ⟨t.kind, recovery, frame :: below.map Level.frame, t, rest, ?_, ?_, rfl,
          solid _ hlex, htake⟩
        · rw [Action.frames_run hfs hl, ha, Action.frames]
        · rw [Action.rest_run_of_not_takes s _ (by rw [ha]; rfl), hm, ← hmode, hlex]
  | start stack lexed keyword named =>
      refine ⟨?_, by simp [State.start]⟩
      simp only [State.start, State.early_take, State.early_enter, State.frames_take,
        State.frames_enter, State.frames_atRest, frames_of_stack_nil stack]
      exact .statement
  | @stray t rest stack lexed filler keyword =>
      refine ⟨?_, ?_⟩
      · simp only [State.recover, State.early_enter, State.frames_enter, State.frames_atRest,
          frames_of_stack_nil stack]
        exact .between
      · intro _
        refine ⟨t.kind, ⟨.normal, false, none⟩, [], t, rest, ?_, ?_, rfl, filler, ?_⟩
        · simp [State.recover, frames_of_stack_nil stack]
        · simpa [State.recover] using lexed
        · simp [Frame.action, Frame.unexpectedAction, keyword, Frame.stopsAt]

end Machine

end BibStyle
