import BibStyle.Proofs.Shape

/-!
# Every run ends

The machine is given `3 * size + 1` steps. They are enough because of a potential that every move
lowers: three for each byte left, two for a statement that waits for more, one for any other open
node, and two less while a node for unexpected tokens is still empty. An empty text has potential
zero, and no state has less.

`Ends resume s r` is a run of any number of steps from `s` to the result `r`. It holds of exactly
one result, the one that `segments` gives, so facts about parses are shown by induction on it. How
many steps there are, from any offset of a text, is bounded by `run_init_after`.
-/

namespace BibStyle

namespace Machine

namespace Frame

/-- What closing the node is worth. -/
def weight (early : Bool) : Frame → Nat
  | .statement _ items none => if early || items.isEmpty then 1 else 2
  | .statement _ _ (some _) => 2
  | _ => 1

theorem one_le_weight (early : Bool) (f : Frame) : 1 ≤ f.weight early := by
  cases f with
  | statement command items slot =>
      cases slot with
      | none => simp only [weight]; split <;> omega
      | some slot => simp [weight]
  | _ => simp [weight]

theorem weight_le_two (early : Bool) (f : Frame) : f.weight early ≤ 2 := by
  cases f with
  | statement command items slot =>
      cases slot with
      | none => simp only [weight]; split <;> omega
      | some slot => simp [weight]
  | _ => simp [weight]

/-- Closing early never makes a node wait for more. -/
theorem weight_true_le (early : Bool) (f : Frame) : f.weight true ≤ f.weight early := by
  cases f with
  | statement command items slot =>
      cases slot with
      | none => exact one_le_weight early _
      | some slot => exact Nat.le_refl _
  | _ => exact Nat.le_refl _

end Frame

def weights (early : Bool) : List Frame → Nat
  | [] => 0
  | f :: fs => f.weight early + weights early fs

@[simp] theorem weights_nil (early : Bool) : weights early [] = 0 := rfl

@[simp] theorem weights_cons (early : Bool) (f : Frame) (fs : List Frame) :
    weights early (f :: fs) = f.weight early + weights early fs := rfl

theorem weights_true_le (early : Bool) (fs : List Frame) :
    weights true fs ≤ weights early fs := by
  induction fs with
  | nil => exact Nat.le_refl _
  | cons f fs ih =>
      have := f.weight_true_le early
      simp only [weights_cons]
      omega

variable {early : Bool} {f : Frame} {kind : Option TokenKind}

/-- A taken token opens at most one node. -/
theorem weights_of_takes (fs : List Frame)
    (hopen : ∀ command items, f = .statement command items none → early = false ∧ items ≠ [])
    (ht : (f.action kind).takes = true) :
    weights ((f.action kind).early early) ((f.action kind).frames (f :: fs)) ≤
      weights early (f :: fs) + 1 := by
  have hf := f.one_le_weight early
  cases ha : f.action kind with
  | take g field =>
      have hg := g.weight_le_two early
      simp only [Action.early, Action.frames, List.tail_cons, weights_cons]
      omega
  | fill e g =>
      have hg := g.weight_le_two early
      simp only [Action.early, Action.frames, List.tail_cons, weights_cons]
      omega
  | descend g child =>
      simp only [Action.early, Action.frames, List.tail_cons, weights_cons]
      rcases Frame.action_descend ha with ⟨command, item, items, rfl, rfl, hc⟩ |
        ⟨field, rfl, rfl, hc⟩
      · obtain ⟨rfl, -⟩ := hopen command (item :: items) rfl
        have hg := (Frame.statement command items none).weight_le_two false
        have hc : child.weight false = 1 := by rcases hc with rfl | rfl <;> rfl
        have hf : (Frame.statement command (item :: items) none).weight false = 2 := rfl
        omega
      · have hc : child.weight early = 1 := by rcases hc with rfl | rfl <;> rfl
        omega
  | finish field =>
      simp only [Action.early, Action.frames, List.tail_cons, weights_cons]
      omega
  | _ => rw [ha] at ht; cases ht

/-- Without a token taken or a node opened, a node is closed or stops waiting for more. -/
theorem weights_of_not_takes (fs : List Frame)
    (hopen : ∀ command items, f = .statement command items none → early = false ∧ items ≠ [])
    (ht : (f.action kind).takes = false)
    (hr : ∀ found recovery header, f.action kind ≠ .recover found recovery header) :
    weights ((f.action kind).early early) ((f.action kind).frames (f :: fs)) + 1 ≤
      weights early (f :: fs) := by
  have hfs := weights_true_le early fs
  have hf := f.one_le_weight early
  cases ha : f.action kind with
  | abort fault =>
      simp only [Action.early, Action.frames, List.tail_cons, weights_cons]
      omega
  | stop fault =>
      simp only [Action.early, Action.frames, List.tail_cons, weights_cons]
      omega
  | lack fault =>
      simp only [Action.early, Action.frames, List.tail_cons, weights_cons]
      omega
  | abandon fault g =>
      obtain ⟨command, items, slot, rfl, rfl⟩ := Frame.action_abandon ha
      have hg : (Frame.statement command items none).weight true = 1 := rfl
      have hf : (Frame.statement command items slot).weight early = 2 := by
        cases slot with
        | none =>
            obtain ⟨rfl, hi⟩ := hopen command items rfl
            simp [Frame.weight, hi]
        | some slot => rfl
      simp only [Action.early, Action.frames, List.tail_cons, weights_cons]
      omega
  | recover found recovery header => exact absurd ha (hr _ _ _)
  | _ => rw [ha] at ht; cases ht

theorem weights_of_recover (early : Bool) (fs : List Frame) (found : TokenKind)
    (recovery : Recovery) (header : Bool) :
    weights ((Action.recover found recovery header).early early)
        ((Action.recover found recovery header).frames fs) ≤ weights early fs + 1 := by
  have hu : ∀ e, (Frame.unexpected found recovery 0).weight e = 1 := fun _ => rfl
  have hfs := weights_true_le early fs
  simp only [Action.early, Action.frames, weights_cons, hu]
  cases header <;> simp only [Bool.true_or, Bool.false_or] <;> omega

/-! ## The potential -/

def potential (s : State) : Nat :=
  3 * s.rest.size + weights s.early s.frames - if s.isFresh then 2 else 0

theorem potential_of_not_fresh {s : State} (h : s.isFresh = false) :
    potential s = 3 * s.rest.size + weights s.early s.frames := by
  simp [potential, h]

/-- An empty node of unexpected tokens has a token to come, which pays for it. -/
theorem potential_of_fresh {s : State} (hw : WellFormed s) (h : s.isFresh = true) :
    potential s + 2 = 3 * s.rest.size + weights s.early s.frames := by
  obtain ⟨found, recovery, fs, t, rest, -, hl, -⟩ := hw.fresh h
  have hne : s.rest ≠ [] := by
    intro hr
    simp [hr] at hl
  have := Text.size_pos hne
  simp only [potential, h, if_true]
  omega

theorem size_lt_of_lex {m : Mode} {t rest : Text} {tok : Token}
    (h : lex m t = some (tok, rest)) : rest.size < t.size := by
  obtain ⟨rfl, hne⟩ := append_of_lex h
  have := Text.size_pos hne
  simp only [Text.size_append]
  omega

/-- A statement that is not settled waits for more. -/
theorem waits_of_not_settled {s : State} {frame : Frame} {fs : List Frame}
    (h : s.isSettled = false) (hfs : s.frames = frame :: fs) (command : Command)
    (items : List Item) (hf : frame = .statement command items none) :
    s.early = false ∧ items ≠ [] := by
  have hn : ¬s.isSettled = true := by simp [h]
  rw [State.isSettled_iff] at hn
  constructor
  · cases he : s.early with
    | false => rfl
    | true => exact absurd ⟨command, items, fs, hf ▸ hfs, .inl he⟩ hn
  · rintro rfl
    exact hn ⟨command, [], fs, hf ▸ hfs, .inr rfl⟩

/-- An empty node of unexpected tokens takes the next token and stays one. -/
theorem WellFormed.action_of_isFresh {s : State} {f : Frame} {fs : List Frame} (hw : WellFormed s)
    (h : s.isFresh = true) (hfs : s.frames = f :: fs) :
    ∃ g, s.decision f = .take g none ∧ ∀ early, g.weight early = f.weight early := by
  obtain ⟨found, recovery, fs', t, rest, hfs', hlex, rfl, -, htake⟩ := hw.fresh h
  obtain ⟨rfl, rfl⟩ := List.cons.inj (hfs.symm.trans hfs')
  rw [State.decision, State.mode_of_frames_cons hfs, Frame.mode, hlex]
  exact ⟨_, htake, fun _ => rfl⟩

/-- Only recovering leaves an empty node open. -/
theorem isFresh_run_eq_false {s : State} {frame : Frame}
    (hr : ∀ found recovery header, s.decision frame ≠ .recover found recovery header) :
    ((s.decision frame).run s (lex s.mode s.rest)).isFresh = false := by
  rw [Bool.eq_false_iff]
  intro h
  obtain ⟨found, recovery, header, ha⟩ := Action.recover_of_isFresh_run isSome_lex_of_takes h
  exact hr found recovery header ha

/-- A token taken pays for what it opens. -/
theorem potential_run_of_takes {s : State} {frame : Frame} {children : List Node}
    {below : List Level} (hw : WellFormed s) (hset : s.isSettled = false)
    (hs : s.stack = ⟨frame, children⟩ :: below) (ht : (s.decision frame).takes = true) :
    potential ((s.decision frame).run s (lex s.mode s.rest)) < potential s := by
  have hfs := frames_of_stack_cons hs
  have hnf : ((s.decision frame).run s (lex s.mode s.rest)).isFresh = false := by
    refine isFresh_run_eq_false fun found recovery header ha => ?_
    rw [ha] at ht
    cases ht
  rw [potential_of_not_fresh hnf, Action.frames_run hfs isSome_lex_of_takes, Action.early_run]
  obtain ⟨⟨t, rest⟩, hlex⟩ := Option.isSome_iff_exists.1 (isSome_lex_of_takes ht)
  have hlt := size_lt_of_lex hlex
  rw [hlex, Action.rest_run_of_takes ht]
  cases hf : s.isFresh with
  | true =>
      -- the node was opened for the token that it takes now
      obtain ⟨g, ha, hg⟩ := hw.action_of_isFresh hf hfs
      have hpot := potential_of_fresh hw hf
      simp only [ha, Action.early, Action.frames, List.tail_cons, weights_cons, hg]
      rw [hfs, weights_cons] at hpot
      omega
  | false =>
      have hpot := potential_of_not_fresh hf
      have hle := weights_of_takes (below.map Level.frame) (waits_of_not_settled hset hfs) ht
      rw [hfs] at hpot
      simp only [State.decision] at hle ⊢
      omega

/-- Without a token taken, a node is closed, stops waiting, or is opened empty. -/
theorem potential_run_of_not_takes {s : State} {frame : Frame} {children : List Node}
    {below : List Level} (hw : WellFormed s) (hset : s.isSettled = false)
    (hs : s.stack = ⟨frame, children⟩ :: below) (hsolid : Solid (lex s.mode s.rest))
    (ht : (s.decision frame).takes = false) :
    potential ((s.decision frame).run s (lex s.mode s.rest)) < potential s := by
  have hw' := hw.moves (.act hset hs hsolid)
  have hfs := frames_of_stack_cons hs
  have hf : s.isFresh = false := by
    rw [Bool.eq_false_iff]
    intro h
    obtain ⟨g, ha, -⟩ := hw.action_of_isFresh h hfs
    rw [ha] at ht
    cases ht
  have hpot := potential_of_not_fresh hf
  rw [hfs] at hpot
  have hframes := Action.frames_run (a := s.decision frame) hfs isSome_lex_of_takes
  have hearly := Action.early_run (s.decision frame) s (lex s.mode s.rest)
  have hrest := Action.rest_run_of_not_takes s (lex s.mode s.rest) ht
  by_cases hr : ∃ found recovery header, s.decision frame = .recover found recovery header
  · obtain ⟨found, recovery, header, ha⟩ := hr
    rw [ha] at hw' hframes hearly hrest ⊢
    have hle := weights_of_recover s.early (frame :: below.map Level.frame) found recovery header
    have hpot' := potential_of_fresh hw' (by simp [Action.run])
    rw [hframes, hearly, hrest] at hpot'
    omega
  · have hr : ∀ found recovery header, s.decision frame ≠ .recover found recovery header :=
      fun found recovery header ha => hr ⟨found, recovery, header, ha⟩
    rw [potential_of_not_fresh (isFresh_run_eq_false hr), hframes, hearly, hrest]
    have hle := weights_of_not_takes (below.map Level.frame) (waits_of_not_settled hset hfs) ht hr
    simp only [State.decision] at hle ⊢
    omega

/-- Every move lowers the potential. -/
theorem Moves.potential_lt {s s' : State} (hm : Moves s s') (hw : WellFormed s) :
    potential s' < potential s := by
  have hw' := hw.moves hm
  cases hm with
  | settle settled =>
      obtain ⟨command, items, below, hfs, -⟩ := State.isSettled_iff.1 settled
      have hf : s.isFresh = false := by
        rw [Bool.eq_false_iff]
        intro h
        obtain ⟨_, _, _, hu⟩ := s.isFresh_of_frames_cons hfs h
        cases hu
      have hone := (Frame.statement command items none).one_le_weight s.early
      rw [potential_of_not_fresh hf, potential_of_not_fresh (State.isFresh_close s none),
        State.rest_close, State.early_close, State.frames_close, hfs, List.tail_cons, weights_cons]
      omega
  | @skip t rest open_ lexed filler =>
      have hf : s.isFresh = false := by
        rw [Bool.eq_false_iff]
        intro h
        obtain ⟨_, _, _, _, _, hfs, hl, -, hk, -⟩ := hw.fresh h
        rw [State.mode_of_frames_cons hfs] at lexed
        obtain ⟨rfl, rfl⟩ := Prod.mk.inj (Option.some.inj (lexed.symm.trans hl))
        simp [hk] at filler
      have hlt := size_lt_of_lex lexed
      have hf' : (s.skip t rest).isFresh = false := hf
      rw [potential_of_not_fresh hf, potential_of_not_fresh hf', State.rest_skip, State.early_skip,
        State.frames_skip]
      omega
  | @act frame children below open_ stack solid =>
      cases ht : (s.decision frame).takes with
      | true => exact potential_run_of_takes hw open_ stack ht
      | false => exact potential_run_of_not_takes hw open_ stack solid ht
  | @start t rest command stack lexed keyword named =>
      have hfs := frames_of_stack_nil stack
      have hf' : (s.start command t rest).isFresh = false := by simp [State.start]
      have hlt := size_lt_of_lex lexed
      have htwo := (Frame.statement command command.items none).weight_le_two false
      rw [potential_of_not_fresh (s.isFresh_of_frames_nil hfs), potential_of_not_fresh hf', hfs]
      simp only [State.start, State.rest_take, State.early_take, State.early_enter,
        State.early_atRest, State.frames_take, State.frames_enter, State.frames_atRest, hfs,
        weights_cons, weights_nil]
      omega
  | @stray t rest stack lexed filler keyword =>
      have hfs := frames_of_stack_nil stack
      have hpot := potential_of_fresh hw' (by simp [State.recover])
      rw [potential_of_not_fresh (s.isFresh_of_frames_nil hfs), hfs]
      simp only [State.recover, State.rest_enter, State.rest_atRest, State.frames_enter,
        State.frames_atRest, hfs, weights_cons, weights_nil, Frame.weight] at hpot ⊢
      omega

/-! ## Runs -/

/-- The machine goes from the state to the result. -/
inductive Ends (resume : Nat → Option Nat) : State → List Segment × Option Nat → Prop where
  | done {s segs resumed} (h : step resume s = .done segs resumed) : Ends resume s (segs, resumed)
  | next {s s' r} (h : step resume s = .next s') (run : Ends resume s' r) : Ends resume s r

theorem Ends.unique {resume : Nat → Option Nat} {s : State} {r r' : List Segment × Option Nat}
    (h : Ends resume s r) (h' : Ends resume s r') : r = r' := by
  induction h with
  | done hd =>
      cases h' with
      | done hd' =>
          rw [hd] at hd'
          cases hd'
          rfl
      | next hn _ =>
          rw [hd] at hn
          cases hn
  | next hn _ ih =>
      cases h' with
      | done hd =>
          rw [hn] at hd
          cases hd
      | next hn' run =>
          rw [hn] at hn'
          cases hn'
          exact ih run

theorem ends_of_run {resume : Nat → Option Nat} {fuel : Nat} {s : State}
    {r : List Segment × Option Nat} (h : run resume fuel s = some r) : Ends resume s r := by
  induction fuel generalizing s with
  | zero => cases h
  | succ fuel ih =>
      rw [run] at h
      split at h
      · rename_i s' hs
        exact .next hs (ih h)
      · rename_i segs resumed hs
        cases h
        exact .done hs

/-- As many steps as the potential says, and one for the end, are enough. -/
theorem run_isSome (resume : Nat → Option Nat) {fuel : Nat} {s : State} (hw : WellFormed s)
    (h : potential s < fuel) : ∃ r, run resume fuel s = some r := by
  induction fuel generalizing s with
  | zero => omega
  | succ fuel ih =>
      rw [run]
      split
      · rename_i s' hs
        have hm := moves_of_step hs
        have hlt := hm.potential_lt hw
        exact ih (hw.moves hm) (by omega)
      · exact ⟨_, rfl⟩

@[simp] theorem potential_init (pos : Nat) (text : Text) :
    potential (.init pos text) = 3 * text.size := by
  rw [potential_of_not_fresh rfl]
  rfl

/-- The machine always comes to an end within the steps it is given. -/
theorem run_enough (resume : Nat → Option Nat) (pos : Nat) (text : Text) :
    run resume (enough text.size) (.init pos text) = some (segments resume pos text) := by
  have hlt : potential (.init pos text) < enough text.size := by
    rw [potential_init, enough]
    omega
  obtain ⟨r, hr⟩ := run_isSome resume (wellFormed_init pos text) hlt
  rw [segments, hr]
  rfl

theorem ends_segments (resume : Nat → Option Nat) (pos : Nat) (text : Text) :
    Ends resume (.init pos text) (segments resume pos text) :=
  ends_of_run (run_enough resume pos text)

/-- A run that ends takes a certain number of steps: fewer are not enough, and more change
nothing. -/
theorem exists_steps_of_run {resume : Nat → Option Nat} {fuel : Nat} {s : State}
    {r : List Segment × Option Nat} (h : run resume fuel s = some r) :
    ∃ n ≤ fuel, ∀ m, run resume m s = if n ≤ m then some r else none := by
  induction fuel generalizing s with
  | zero => cases h
  | succ fuel ih =>
      rw [run] at h
      split at h
      · rename_i s' hs
        obtain ⟨n, hn, hrun⟩ := ih h
        refine ⟨n + 1, by omega, ?_⟩
        intro m
        cases m with
        | zero => rfl
        | succ m => simp [run, hs, hrun]
      · rename_i segs resumed hs
        cases h
        refine ⟨1, by omega, ?_⟩
        intro m
        cases m with
        | zero => rfl
        | succ m => simp [run, hs]

/-- Wherever in the text the machine starts, and whatever it may take over, it comes to an end after
at most three steps for each byte left, and one. A filler that is passed over counts as a step. -/
theorem run_init_after (resume : Nat → Option Nat) (text : Text) (start : Nat) :
    ∃ n ≤ 3 * (text.size - start) + 1, ∀ fuel,
      run resume fuel (.init start (text.after start)) =
        if n ≤ fuel then some (segments resume start (text.after start)) else none := by
  have hsize := text.size_after_le start
  obtain ⟨n, hn, hrun⟩ := exists_steps_of_run (run_enough resume start (text.after start))
  rw [enough] at hn
  exact ⟨n, by omega, hrun⟩

end Machine

end BibStyle
