import BibStyle.Proofs.Action
import BibStyle.Proofs.Lexing

/-!
# Steps and runs of the machine

`Moves s s'` lists what one step can do, with everything that is known where it does it;
`moves_of_step` and `step_eq_done` say that nothing else happens. `Ends resume s r` is a run of any
number of steps from `s` to the result `r`. Invariants of the machine are shown by cases on a move,
and facts about whole parses by induction on a run.

The first part says what each operation on the state leaves alone.
-/

namespace BibStyle

namespace Machine

namespace State

/-- The frames of the open nodes, innermost first. -/
def frames (s : State) : List Frame := s.stack.map Level.frame

/-! ## What the operations leave alone -/

section Projections

variable (s : State) (n : Node) (t : Token) (text : Text) (frame : Frame) (field : Option Field)
  (fault : Fault) (result : Option Fault)

@[simp] theorem rest_attach : (s.attach n).rest = s.rest := by unfold attach; split <;> rfl

@[simp] theorem pos_attach : (s.attach n).pos = s.pos := by unfold attach; split <;> rfl

@[simp] theorem pending_attach : (s.attach n).pending = s.pending := by unfold attach; split <;> rfl

@[simp] theorem early_attach : (s.attach n).early = s.early := by unfold attach; split <;> rfl

@[simp] theorem frames_attach : (s.attach n).frames = s.frames := by
  unfold attach
  split <;> simp_all [frames]

/-- What attaching fillers one after the other leaves alone, a flush leaves alone. -/
theorem flush_induction {p : State → Prop} (s : State) (h : p { s with pending := [] })
    (attach : ∀ s t, p s → p (s.attach (.ofToken none t))) : p s.flush := by
  unfold flush
  induction s.pending with
  | nil => exact h
  | cons t ts ih => exact attach _ t ih

@[simp] theorem rest_flush : s.flush.rest = s.rest :=
  flush_induction (p := fun u => u.rest = s.rest) s rfl fun u t h => by simp [h]

@[simp] theorem pos_flush : s.flush.pos = s.pos :=
  flush_induction (p := fun u => u.pos = s.pos) s rfl fun u t h => by simp [h]

@[simp] theorem pending_flush : s.flush.pending = [] :=
  flush_induction (p := fun u => u.pending = []) s rfl fun u t h => by simp [h]

@[simp] theorem early_flush : s.flush.early = s.early :=
  flush_induction (p := fun u => u.early = s.early) s rfl fun u t h => by simp [h]

@[simp] theorem frames_flush : s.flush.frames = s.frames :=
  flush_induction (p := fun u => u.frames = s.frames) s rfl fun u t h => by simp [h]

@[simp] theorem rest_mark : (s.mark fault).rest = s.rest := rest_attach s _

@[simp] theorem pos_mark : (s.mark fault).pos = s.pos := pos_attach s _

@[simp] theorem pending_mark : (s.mark fault).pending = s.pending := pending_attach s _

@[simp] theorem early_mark : (s.mark fault).early = s.early := early_attach s _

@[simp] theorem frames_mark : (s.mark fault).frames = s.frames := frames_attach s _

@[simp] theorem rest_setFrame : (s.setFrame frame).rest = s.rest := by
  unfold setFrame; split <;> rfl

@[simp] theorem pos_setFrame : (s.setFrame frame).pos = s.pos := by
  unfold setFrame; split <;> rfl

@[simp] theorem pending_setFrame : (s.setFrame frame).pending = s.pending := by
  unfold setFrame; split <;> rfl

@[simp] theorem early_setFrame : (s.setFrame frame).early = s.early := by
  unfold setFrame; split <;> rfl

theorem frames_setFrame {f : Frame} {fs : List Frame} (h : s.frames = f :: fs) :
    (s.setFrame frame).frames = frame :: fs := by
  unfold setFrame
  split <;> simp_all [frames]

@[simp] theorem rest_closeEarly : s.closeEarly.rest = s.rest := rfl

@[simp] theorem pos_closeEarly : s.closeEarly.pos = s.pos := rfl

@[simp] theorem pending_closeEarly : s.closeEarly.pending = s.pending := rfl

@[simp] theorem early_closeEarly : s.closeEarly.early = true := rfl

@[simp] theorem frames_closeEarly : s.closeEarly.frames = s.frames := rfl

@[simp] theorem rest_close : (s.close result).rest = s.rest := by
  unfold close
  split
  · rfl
  · split
    · rfl
    · simp

@[simp] theorem pos_close : (s.close result).pos = s.pos := by
  unfold close
  split
  · rfl
  · split
    · rfl
    · simp

@[simp] theorem pending_close : (s.close result).pending = s.pending := by
  unfold close
  split
  · rfl
  · split
    · rfl
    · simp

@[simp] theorem early_close : (s.close result).early = s.early := by
  unfold close
  split
  · rfl
  · split
    · rfl
    · simp

@[simp] theorem frames_close : (s.close result).frames = s.frames.tail := by
  unfold close
  split
  · rename_i h
    simp [frames, h]
  · rename_i h
    split
    · simp [frames, h]
    · rw [frames_attach]
      simp [frames, h]

@[simp] theorem rest_take : (s.take field t text).rest = text := rfl

@[simp] theorem pos_take : (s.take field t text).pos = s.pos + t.size := rfl

@[simp] theorem pending_take : (s.take field t text).pending = [] := by simp [take]

@[simp] theorem early_take : (s.take field t text).early = s.early := by simp [take]

@[simp] theorem frames_take : (s.take field t text).frames = s.frames := by
  rw [← frames_flush s, ← frames_attach s.flush (.ofToken field t)]
  rfl

@[simp] theorem rest_enter : (s.enter frame).rest = s.rest := by simp [enter]

@[simp] theorem pos_enter : (s.enter frame).pos = s.pos := by simp [enter]

@[simp] theorem pending_enter : (s.enter frame).pending = [] := by simp [enter]

@[simp] theorem early_enter : (s.enter frame).early = s.early := by simp [enter]

@[simp] theorem frames_enter : (s.enter frame).frames = frame :: s.frames := by
  rw [← frames_flush s]
  rfl

@[simp] theorem rest_skip : (s.skip t text).rest = text := rfl

@[simp] theorem pos_skip : (s.skip t text).pos = s.pos + t.size := rfl

@[simp] theorem pending_skip : (s.skip t text).pending = t :: s.pending := rfl

@[simp] theorem early_skip : (s.skip t text).early = s.early := rfl

@[simp] theorem frames_skip : (s.skip t text).frames = s.frames := rfl

end Projections

theorem mode_of_frames_cons {s : State} {f : Frame} {fs : List Frame} (h : s.frames = f :: fs) :
    s.mode = f.mode := by
  obtain ⟨level, below, hs, rfl, -⟩ := List.map_eq_cons_iff.1 h
  simp [mode, hs]

theorem mode_of_frames_nil {s : State} (h : s.frames = []) : s.mode = .normal := by
  have hs : s.stack = [] := List.map_eq_nil_iff.1 h
  simp [mode, hs]

theorem stack_eq_nil_iff {s : State} : s.stack = [] ↔ s.frames = [] := by simp [frames]

theorem stack_flush {s : State} (h : s.stack = []) : s.flush.stack = [] := by
  rw [stack_eq_nil_iff] at h ⊢
  rw [frames_flush, h]

theorem isSettled_iff {s : State} : s.isSettled = true ↔
    ∃ command items below, s.frames = .statement command items none :: below ∧
      (s.early = true ∨ items = []) := by
  unfold isSettled
  constructor
  · intro h
    split at h
    · rename_i command items children below hs
      refine ⟨command, items, below.map Level.frame, by simp [frames, hs], ?_⟩
      simpa using h
    · cases h
  · rintro ⟨command, items, below, hf, h⟩
    obtain ⟨⟨frame, children⟩, levels, hs, rfl, -⟩ := List.map_eq_cons_iff.1 hf
    rw [hs]
    simpa using h

/-- Between statements, with the fillers set aside made segments. -/
def atRest (s : State) : State := { s.flush with early := false }

@[simp] theorem rest_atRest (s : State) : s.atRest.rest = s.rest := rest_flush s

@[simp] theorem pos_atRest (s : State) : s.atRest.pos = s.pos := pos_flush s

@[simp] theorem pending_atRest (s : State) : s.atRest.pending = [] := pending_flush s

@[simp] theorem early_atRest (s : State) : s.atRest.early = false := rfl

@[simp] theorem frames_atRest (s : State) : s.atRest.frames = s.frames := frames_flush s

/-- The state behind the keyword `t` that starts a statement. -/
def start (s : State) (command : Command) (t : Token) (rest : Text) : State :=
  (s.atRest.enter (.statement command command.items none)).take none t rest

end State

/-! ## What an action does to the state -/

namespace Action

variable {a : Action} {s : State} {look : Lookahead}

theorem run_of_not_takes (s : State) (look look' : Lookahead) (h : a.takes = false) :
    a.run s look = a.run s look' := by
  cases a <;> simp [takes] at h <;> rfl

theorem rest_run_of_takes {t : Token} {rest : Text} (h : a.takes = true) :
    (a.run s (some (t, rest))).rest = rest := by
  cases a <;> simp [takes] at h <;> simp [run]

theorem rest_run_of_not_takes (s : State) (look : Lookahead) (h : a.takes = false) :
    (a.run s look).rest = s.rest := by
  cases a <;> simp [takes] at h <;> simp [run]
  split <;> rfl

theorem pos_run_of_takes {t : Token} {rest : Text} (h : a.takes = true) :
    (a.run s (some (t, rest))).pos = s.pos + t.size := by
  cases a <;> simp [takes] at h <;> simp [run]

theorem pos_run_of_not_takes (s : State) (look : Lookahead) (h : a.takes = false) :
    (a.run s look).pos = s.pos := by
  cases a <;> simp [takes] at h <;> simp [run]
  split <;> rfl

theorem early_run (a : Action) (s : State) (look : Lookahead) :
    (a.run s look).early = a.early s.early := by
  cases a <;> rcases look with - | ⟨t, rest⟩ <;> simp [run, early]
  all_goals split <;> simp_all

theorem frames_run {f : Frame} {fs : List Frame} (h : s.frames = f :: fs)
    (hl : a.takes = true → look.isSome = true) : (a.run s look).frames = a.frames (f :: fs) := by
  have hset : ∀ (u : State) (g : Frame), u.frames = f :: fs → (u.setFrame g).frames = g :: fs :=
    fun u g hu => u.frames_setFrame g hu
  cases a with
  | take g field =>
      obtain ⟨⟨t, rest⟩, rfl⟩ := Option.isSome_iff_exists.1 (hl rfl)
      simp [run, frames, hset s g h]
  | fill e g =>
      obtain ⟨⟨t, rest⟩, rfl⟩ := Option.isSome_iff_exists.1 (hl rfl)
      simp [run, frames, hset (s.flush.mark (.missing e)) g (by simpa using h)]
  | descend g child =>
      obtain ⟨⟨t, rest⟩, rfl⟩ := Option.isSome_iff_exists.1 (hl rfl)
      simp [run, frames, hset s g h]
  | finish field =>
      obtain ⟨⟨t, rest⟩, rfl⟩ := Option.isSome_iff_exists.1 (hl rfl)
      simp [run, frames, h]
  | abort fault => simp [run, frames, h]
  | stop fault => simp [run, frames, h]
  | lack fault => simp [run, frames, h]
  | abandon fault g => simp [run, frames, hset (s.mark fault) g (by simpa using h)]
  | recover found recovery header =>
      cases header <;> simp [run, frames, h]

end Action

/-! ## Moves -/

/-- What an open node with the frame decides in the state. -/
def State.decision (s : State) (frame : Frame) : Action :=
  frame.action ((lex s.mode s.rest).map (·.1.kind))

/-- The token a decision takes is there to be taken. -/
theorem isSome_lex_of_takes {s : State} {frame : Frame} (h : (s.decision frame).takes = true) :
    (lex s.mode s.rest).isSome = true := by
  simpa using Frame.isSome_of_takes h

/-- The next token, where there is one, is no filler. -/
def Solid (look : Lookahead) : Prop := ∀ t ∈ look, t.1.kind.isFiller = false

theorem solid_or_filler (look : Lookahead) :
    Solid look ∨ ∃ t rest, look = some (t, rest) ∧ t.kind.isFiller = true := by
  rcases look with - | ⟨t, rest⟩
  · exact .inl (by simp [Solid])
  · cases hf : t.kind.isFiller with
    | true => exact .inr ⟨t, rest, rfl, hf⟩
    | false => exact .inl (by simp [Solid, hf])

/-- What a step can lead to. -/
inductive Moves (s : State) : State → Prop where
  /-- The statement has all its parts. -/
  | settle (settled : s.isSettled = true) : Moves s (s.close none)
  | skip {t rest} (open_ : s.isSettled = false) (lexed : lex s.mode s.rest = some (t, rest))
      (filler : t.kind.isFiller = true) : Moves s (s.skip t rest)
  /-- The innermost open node decides. -/
  | act {frame children below} (open_ : s.isSettled = false)
      (stack : s.stack = ⟨frame, children⟩ :: below) (solid : Solid (lex s.mode s.rest)) :
      Moves s ((s.decision frame).run s (lex s.mode s.rest))
  /-- A keyword starts a statement. -/
  | start {t rest command} (stack : s.stack = []) (lexed : lex .normal s.rest = some (t, rest))
      (keyword : t.kind = .keyword) (named : Command.ofWord? t.text = some command) :
      Moves s (s.start command t rest)
  /-- No statement starts with the token. -/
  | stray {t rest} (stack : s.stack = []) (lexed : lex .normal s.rest = some (t, rest))
      (filler : t.kind.isFiller = false) (keyword : t.kind ≠ .keyword) :
      Moves s (s.atRest.recover t ⟨.normal, false, none⟩)

theorem isSettled_of_stack_nil {s : State} (h : s.stack = []) : s.isSettled = false := by
  simp [State.isSettled, h]

theorem mode_of_stack_nil {s : State} (h : s.stack = []) : s.mode = .normal := by
  simp [State.mode, h]

theorem step_of_isSettled {resume : Nat → Option Nat} {s : State} (h : s.isSettled = true) :
    step resume s = .next (s.close none) := by
  simp [step, h]

theorem step_of_filler {resume : Nat → Option Nat} {s : State} {t : Token} {rest : Text}
    (h : s.isSettled = false) (hl : lex s.mode s.rest = some (t, rest))
    (hf : t.kind.isFiller = true) : step resume s = .next (s.skip t rest) := by
  simp [step, h, hl, hf]

theorem step_of_stack_cons {resume : Nat → Option Nat} {s : State} {frame : Frame}
    {children : List Node} {below : List Level} (h : s.isSettled = false)
    (hs : s.stack = ⟨frame, children⟩ :: below) (hl : Solid (lex s.mode s.rest)) :
    step resume s = .next ((s.decision frame).run s (lex s.mode s.rest)) := by
  rw [State.decision, ← State.inFrame_eq_run _ hs]
  unfold step
  rw [if_neg (by simp [h])]
  cases hlex : lex s.mode s.rest with
  | none => simp [hs]
  | some look => simp [hs, hl look hlex]

theorem step_of_stack_nil {resume : Nat → Option Nat} {s : State} (hs : s.stack = [])
    (hl : Solid (lex .normal s.rest)) : step resume s = atTop resume s (lex .normal s.rest) := by
  unfold step
  rw [if_neg (by simp [isSettled_of_stack_nil hs]), mode_of_stack_nil hs]
  cases hlex : lex .normal s.rest with
  | none => simp [hs]
  | some look => simp [hs, hl look hlex]

theorem atTop_keyword {resume : Nat → Option Nat} {s : State} {t : Token} {rest : Text}
    {command : Command} (hk : t.kind = .keyword) (hc : Command.ofWord? t.text = some command) :
    atTop resume s (some (t, rest)) =
      match resume s.pos with
      | some i => .done s.flush.segments.reverse (some i)
      | none => .next (s.start command t rest) := by
  cases hr : resume s.pos with
  | none => simp [atTop, hk, hc, hr, State.start, State.atRest]
  | some i => simp [atTop, hk, hc, hr]

theorem atTop_of_ne_keyword {resume : Nat → Option Nat} {s : State} {t : Token} {rest : Text}
    (hk : t.kind ≠ .keyword) :
    atTop resume s (some (t, rest)) = .next (s.atRest.recover t ⟨.normal, false, none⟩) := by
  simp only [atTop]
  split
  · exact absurd ‹_› hk
  · rfl

/-- A step that goes on is one of the moves. -/
theorem moves_of_step {resume : Nat → Option Nat} {s s' : State}
    (h : step resume s = .next s') : Moves s s' := by
  cases hset : s.isSettled with
  | true =>
      rw [step_of_isSettled hset] at h
      cases h
      exact .settle hset
  | false =>
      rcases solid_or_filler (lex s.mode s.rest) with hsolid | ⟨t, rest, hlex, hf⟩
      · cases hs : s.stack with
        | cons level below =>
            rw [step_of_stack_cons hset hs hsolid] at h
            cases h
            exact .act hset hs hsolid
        | nil =>
            rw [mode_of_stack_nil hs] at hsolid
            rw [step_of_stack_nil hs hsolid] at h
            cases hlex : lex .normal s.rest with
            | none => simp [hlex, atTop] at h
            | some look =>
                obtain ⟨t, rest⟩ := look
                rw [hlex] at h
                by_cases hk : t.kind = .keyword
                · obtain ⟨command, hc⟩ := ofWord?_of_keyword hlex hk
                  rw [atTop_keyword hk hc] at h
                  split at h
                  · cases h
                  · cases h
                    exact .start hs hlex hk hc
                · rw [atTop_of_ne_keyword hk] at h
                  cases h
                  exact .stray hs hlex (hsolid _ hlex) hk
      · rw [step_of_filler hset hlex hf] at h
        cases h
        exact .skip hset hlex hf

/-- A run ends between statements, at the end of the text or at a statement that is taken over. -/
theorem step_eq_done {resume : Nat → Option Nat} {s : State} {segs : List Segment}
    {resumed : Option Nat} (h : step resume s = .done segs resumed) :
    s.stack = [] ∧ segs = s.flush.segments.reverse ∧
      ((s.rest = [] ∧ resumed = none) ∨
        ∃ t rest, lex .normal s.rest = some (t, rest) ∧ t.kind = .keyword ∧
          resume s.pos = resumed ∧ resumed.isSome = true) := by
  cases hset : s.isSettled with
  | true => simp [step_of_isSettled hset] at h
  | false =>
      rcases solid_or_filler (lex s.mode s.rest) with hsolid | ⟨t, rest, hlex, hf⟩
      · cases hs : s.stack with
        | cons level below => simp [step_of_stack_cons hset hs hsolid] at h
        | nil =>
            rw [mode_of_stack_nil hs] at hsolid
            rw [step_of_stack_nil hs hsolid] at h
            cases hlex : lex .normal s.rest with
            | none =>
                simp only [hlex, atTop, Step.done.injEq] at h
                exact ⟨rfl, h.1.symm, .inl ⟨lex_eq_none_iff.1 hlex, h.2.symm⟩⟩
            | some look =>
                obtain ⟨t, rest⟩ := look
                rw [hlex] at h
                by_cases hk : t.kind = .keyword
                · obtain ⟨command, hc⟩ := ofWord?_of_keyword hlex hk
                  rw [atTop_keyword hk hc] at h
                  split at h
                  · rename_i i hi
                    simp only [Step.done.injEq] at h
                    obtain ⟨rfl, rfl⟩ := h
                    exact ⟨rfl, rfl, .inr ⟨t, rest, rfl, hk, hi, rfl⟩⟩
                  · cases h
                · simp [atTop_of_ne_keyword hk] at h
      · simp [step_of_filler hset hlex hf] at h

/-- With nothing to take over, a run ends at the end of the text. -/
theorem step_none_eq_done {s : State} {segs : List Segment} {resumed : Option Nat}
    (h : step (fun _ => none) s = .done segs resumed) :
    s.stack = [] ∧ s.rest = [] ∧ segs = s.flush.segments.reverse ∧ resumed = none := by
  obtain ⟨hs, hsegs, ⟨hr, hnone⟩ | ⟨_, _, -, -, hnone, hsome⟩⟩ := step_eq_done h
  · exact ⟨hs, hr, hsegs, hnone⟩
  · rw [← hnone] at hsome
    cases hsome

end Machine

end BibStyle
