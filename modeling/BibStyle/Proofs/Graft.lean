import BibStyle.Proofs.Reading

/-!
# Runs inside longer runs

The machine never looks at the segments it has finished, and at the text only through the next
token. So a run can be moved: more text can be put behind what is left to read (`graft`), as long as
the tokens stay the same, and finished segments before those of the run. `step_graft` is that fact
for one step; between statements nothing but the text matters, which gives the parse of a suffix
from a run that has come to it (`ends_of_stack_nil`).
-/

namespace BibStyle

namespace Machine

namespace State

/-- The state with `x` behind the text, and `old` segments, of `d` bytes, before its own. -/
def graft (x : Text) (d : Nat) (old : List Segment) (s : State) : State :=
  { s with rest := s.rest ++ x, pos := d + s.pos, segments := s.segments ++ old }

section Operations

variable (x : Text) (d : Nat) (old : List Segment) (s : State)

@[simp] theorem stack_graft : (s.graft x d old).stack = s.stack := rfl

@[simp] theorem rest_graft : (s.graft x d old).rest = s.rest ++ x := rfl

@[simp] theorem pos_graft : (s.graft x d old).pos = d + s.pos := rfl

@[simp] theorem pending_graft : (s.graft x d old).pending = s.pending := rfl

@[simp] theorem early_graft : (s.graft x d old).early = s.early := rfl

@[simp] theorem segments_graft : (s.graft x d old).segments = s.segments ++ old := rfl

@[simp] theorem frames_graft : (s.graft x d old).frames = s.frames := rfl

@[simp] theorem mode_graft : (s.graft x d old).mode = s.mode := rfl

@[simp] theorem isSettled_graft : (s.graft x d old).isSettled = s.isSettled := rfl

@[simp] theorem attach_graft (n : Node) :
    (s.graft x d old).attach n = (s.attach n).graft x d old := by
  unfold attach
  simp only [stack_graft]
  split <;> rfl

@[simp] theorem flush_graft : (s.graft x d old).flush = s.flush.graft x d old := by
  unfold flush
  simp only [pending_graft]
  have hbase : ({ s.graft x d old with pending := [] } : State) =
      ({ s with pending := [] } : State).graft x d old := rfl
  rw [hbase]
  generalize ({ s with pending := [] } : State) = u
  induction s.pending with
  | nil => rfl
  | cons t ts ih => rw [List.foldr_cons, List.foldr_cons, ih, attach_graft]

@[simp] theorem mark_graft (fault : Fault) :
    (s.graft x d old).mark fault = (s.mark fault).graft x d old :=
  attach_graft x d old s _

@[simp] theorem setFrame_graft (frame : Frame) :
    (s.graft x d old).setFrame frame = (s.setFrame frame).graft x d old := by
  unfold setFrame
  simp only [stack_graft]
  split <;> rfl

@[simp] theorem closeEarly_graft :
    (s.graft x d old).closeEarly = s.closeEarly.graft x d old := rfl

@[simp] theorem close_graft (fault : Option Fault) :
    (s.graft x d old).close fault = (s.close fault).graft x d old := by
  unfold close
  simp only [stack_graft]
  split
  · rfl
  · rename_i below _
    split
    · rfl
    · exact attach_graft x d old { s with stack := below } _

@[simp] theorem skip_graft (t : Token) (rest : Text) :
    (s.graft x d old).skip t (rest ++ x) = (s.skip t rest).graft x d old := by
  simp [skip, graft, Nat.add_assoc]

@[simp] theorem take_graft (field : Option Field) (t : Token) (rest : Text) :
    (s.graft x d old).take field t (rest ++ x) = (s.take field t rest).graft x d old := by
  simp only [take, flush_graft, attach_graft]
  simp [graft, Nat.add_assoc]

@[simp] theorem enter_graft (frame : Frame) :
    (s.graft x d old).enter frame = (s.enter frame).graft x d old := by
  simp only [enter, flush_graft]
  rfl

@[simp] theorem atRest_graft : (s.graft x d old).atRest = s.atRest.graft x d old := by
  simp only [atRest, flush_graft]
  rfl

end Operations

theorem start_graft (x : Text) (d : Nat) (old : List Segment) (s : State) (command : Command)
    (t : Token) (rest : Text) :
    (s.graft x d old).start command t (rest ++ x) = (s.start command t rest).graft x d old := by
  simp only [start, atRest_graft, enter_graft, take_graft]

end State

/-- The next token is the same with `x` behind the text. -/
def Unmoved (x : Text) (m : Mode) (t : Text) : Prop :=
  lex m (t ++ x) = (lex m t).map fun p => (p.1, p.2 ++ x)

theorem unmoved_nil (m : Mode) (t : Text) : Unmoved [] m t := by
  simp [Unmoved]

theorem Action.run_graft (x : Text) (d : Nat) (old : List Segment) (a : Action) (s : State)
    (look : Lookahead) :
    a.run (s.graft x d old) (look.map fun p => (p.1, p.2 ++ x)) =
      (a.run s look).graft x d old := by
  rcases look with - | ⟨t, rest⟩
  · cases a <;> simp [run]
    split <;> simp
  · cases a <;> simp [run]
    split <;> simp

/-- What a step leads to, with `x` behind the text and `old` segments before. -/
def Step.graft (x : Text) (d : Nat) (old : List Segment) : Step → Step
  | .next s => .next (s.graft x d old)
  | .done segs resumed => .done (old.reverse ++ segs) resumed

theorem atTop_graft {s : State} (x : Text) (resume : Nat → Option Nat) (d : Nat)
    (old : List Segment) :
    atTop resume (s.graft x d old) ((lex .normal s.rest).map fun p => (p.1, p.2 ++ x)) =
      (atTop (fun p => resume (d + p)) s (lex .normal s.rest)).graft x d old := by
  cases hl : lex .normal s.rest with
  | none => simp [atTop, Step.graft]
  | some look =>
      obtain ⟨t, rest⟩ := look
      by_cases hk : t.kind = .keyword
      · obtain ⟨command, hc⟩ := ofWord?_of_keyword hl hk
        rw [Option.map_some, atTop_keyword hk hc, atTop_keyword hk hc, State.pos_graft]
        cases resume (d + s.pos) with
        | none => simp [Step.graft, State.start_graft]
        | some i => simp [Step.graft]
      · rw [Option.map_some, atTop_of_ne_keyword hk, atTop_of_ne_keyword hk]
        simp [Step.graft, State.recover]

/-- A step of a moved state is the step of the state, moved. -/
theorem step_graft {x : Text} {s : State} (resume : Nat → Option Nat) (d : Nat)
    (old : List Segment) (h : s.isSettled = false → Unmoved x s.mode s.rest) :
    step resume (s.graft x d old) = (step (fun p => resume (d + p)) s).graft x d old := by
  cases hset : s.isSettled with
  | true =>
      rw [step_of_isSettled hset, step_of_isSettled (s := s.graft x d old) hset]
      simp [Step.graft]
  | false =>
      have hlex : lex (s.graft x d old).mode (s.graft x d old).rest = _ := h hset
      rcases solid_or_filler (lex s.mode s.rest) with hsolid | ⟨t, rest, hl, hf⟩
      · have hsolid' : Solid (lex (s.graft x d old).mode (s.graft x d old).rest) := by
          rw [hlex]
          intro p hp
          obtain ⟨q, hq, rfl⟩ := Option.map_eq_some_iff.1 hp
          exact hsolid q hq
        cases hs : s.stack with
        | cons level below =>
            rw [step_of_stack_cons hset hs hsolid,
              step_of_stack_cons (s := s.graft x d old) hset hs hsolid']
            have hd : (s.graft x d old).decision level.frame = s.decision level.frame := by
              rw [State.decision, hlex, Option.map_map, State.decision]
              rfl
            rw [hd, hlex, Action.run_graft]
            rfl
        | nil =>
            rw [State.mode_graft, mode_of_stack_nil hs] at hsolid' hlex
            rw [mode_of_stack_nil hs] at hsolid
            rw [step_of_stack_nil hs hsolid,
              step_of_stack_nil (s := s.graft x d old) hs hsolid', hlex]
            exact atTop_graft x resume d old
      · rw [hl, Option.map_some] at hlex
        rw [step_of_filler hset hl hf, step_of_filler (s := s.graft x d old) hset hlex hf]
        simp [Step.graft]

/-- A run of the state is one of the state with segments before its own. -/
theorem Ends.graft {resume : Nat → Option Nat} {s : State} {r : List Segment × Option Nat}
    (d : Nat) (old : List Segment) (h : Ends (fun p => resume (d + p)) s r) :
    Ends resume (s.graft [] d old) (old.reverse ++ r.1, r.2) := by
  induction h with
  | done hd =>
      refine .done ?_
      rw [step_graft resume d old fun _ => unmoved_nil _ _, hd]
      rfl
  | next hn _ ih =>
      refine .next ?_ ih
      rw [step_graft resume d old fun _ => unmoved_nil _ _, hn]
      rfl

/-- A text that starts anywhere is parsed as on its own. -/
theorem ends_graft_init (t : Text) (d : Nat) (old : List Segment) :
    Ends (fun _ => none) ((State.init 0 t).graft [] d old)
      (old.reverse ++ (Tree.parse t).segments, none) := by
  have h : Ends (fun _ => none) _ _ := Ends.graft d old (Tree.ends_parse t)
  exact h

theorem eq_parse_of_ends_init {t : Text} {pos : Nat} {r : List Segment × Option Nat}
    (h : Ends (fun _ => none) (.init pos t) r) : r = ((Tree.parse t).segments, none) := by
  have hinit : State.init pos t = (State.init 0 t).graft [] pos [] := by
    simp [State.init, State.graft]
  rw [hinit] at h
  exact h.unique (ends_graft_init t pos [])

/-! ## Between statements -/

/-- In front of a token that is no filler, the fillers set aside can as well be segments. -/
theorem step_atRest {resume : Nat → Option Nat} {s : State} (hs : s.stack = [])
    (hsolid : Solid (lex .normal s.rest)) : step resume s = step resume s.atRest := by
  have hs' : s.atRest.stack = [] := State.stack_flush hs
  have hflush : s.atRest.flush = s.atRest := State.flush_of_pending_nil (State.pending_atRest s)
  have hrest : s.atRest.atRest = s.atRest := by
    rw [State.atRest, hflush]
    rfl
  rw [step_of_stack_nil hs hsolid, step_of_stack_nil hs' (by simpa using hsolid), State.rest_atRest]
  cases hl : lex .normal s.rest with
  | none =>
      simp only [atTop, hflush]
      rfl
  | some look =>
      obtain ⟨t, rest⟩ := look
      by_cases hk : t.kind = .keyword
      · obtain ⟨command, hc⟩ := ofWord?_of_keyword hl hk
        rw [atTop_keyword hk hc, atTop_keyword hk hc, hflush, State.pos_atRest, State.start,
          State.start, hrest]
        rfl
      · rw [atTop_of_ne_keyword hk, atTop_of_ne_keyword hk, hrest]

theorem atRest_eq_graft {s : State} (hs : s.stack = []) :
    s.atRest = (State.init 0 s.rest).graft [] s.pos s.flush.segments := by
  have h : s.atRest = ⟨s.flush.rest, s.flush.pos, s.flush.pending, s.flush.stack, false,
    s.flush.segments⟩ := rfl
  rw [h, State.stack_flush hs, State.pending_flush, State.rest_flush, State.pos_flush]
  simp [State.init, State.graft]

/-- From a state between statements, in front of a token that is no filler, the machine goes on as
if the text began there. -/
theorem ends_of_stack_nil {s : State} (hs : s.stack = []) (hsolid : Solid (lex .normal s.rest)) :
    Ends (fun _ => none) s (s.flush.segments.reverse ++ (Tree.parse s.rest).segments, none) := by
  have h := ends_graft_init s.rest s.pos s.flush.segments
  rw [← atRest_eq_graft hs] at h
  cases h with
  | done hd =>
      refine .done ?_
      rw [step_atRest hs hsolid]
      exact hd
  | next hn run =>
      refine .next ?_ run
      rw [step_atRest hs hsolid]
      exact hn

end Machine

end BibStyle
