import BibStyle.Proofs.Acceptance
import BibStyle.Proofs.Segments

/-!
# The open nodes with their children

What `Action.frames` says of the frames on the stack, `Action.levels` says of the frames and the
children: the stack after each action as a function of the stack before and the fillers set aside.
An action that closes a node hands it on to the node around it, or, if there is none, makes it a
segment.
-/

namespace BibStyle

open Node

namespace Machine

/-- The open nodes with `n` as the last child of the innermost. -/
def attachTo (n : Node) : List Level → List Level
  | [] => []
  | ⟨f, ns⟩ :: below => ⟨f, n :: ns⟩ :: below

namespace State

/-- The fillers set aside as the nodes they become, last first. -/
def fillers (s : State) : List Node := s.pending.map (Node.ofToken none)

@[simp] theorem fillers_setFrame (s : State) (g : Frame) : (s.setFrame g).fillers = s.fillers := by
  simp [fillers]

theorem fillers_of_pending_nil {s : State} (h : s.pending = []) : s.fillers = [] := by
  rw [fillers, h, List.map_nil]

variable {s : State} {f : Frame} {ns : List Node} {below : List Level}

theorem stack_attach (n : Node) (h : s.stack = ⟨f, ns⟩ :: below) :
    (s.attach n).stack = ⟨f, n :: ns⟩ :: below := by
  unfold attach
  rw [h]

theorem stack_flush_cons (h : s.stack = ⟨f, ns⟩ :: below) :
    s.flush.stack = ⟨f, s.fillers ++ ns⟩ :: below := by
  unfold flush fillers
  induction s.pending with
  | nil => exact h
  | cons t ts ih => exact stack_attach _ ih

theorem stack_take (field : Option Field) (t : Token) (rest : Text)
    (h : s.stack = ⟨f, ns⟩ :: below) :
    (s.take field t rest).stack = ⟨f, .ofToken field t :: (s.fillers ++ ns)⟩ :: below :=
  stack_attach _ (stack_flush_cons h)

theorem stack_enter (g : Frame) (h : s.stack = ⟨f, ns⟩ :: below) :
    (s.enter g).stack = ⟨g, []⟩ :: ⟨f, s.fillers ++ ns⟩ :: below := by
  rw [← stack_flush_cons h]
  rfl

@[simp] theorem mode_enter (g : Frame) : (s.enter g).mode = g.mode := rfl

/-- Between statements, the node that is opened is the only one. -/
theorem stack_enter_atRest (g : Frame) (h : s.stack = []) :
    (s.atRest.enter g).stack = [⟨g, []⟩] := by
  have hrest : s.atRest.stack = [] := stack_flush h
  rw [enter, flush_of_pending_nil (pending_atRest s), hrest]

theorem segments_enter_atRest (g : Frame) : (s.atRest.enter g).segments = s.flush.segments := by
  rw [enter, flush_of_pending_nil (pending_atRest s)]
  rfl

theorem stack_start (command : Command) (t : Token) (rest : Text) (h : s.stack = []) :
    (s.start command t rest).stack =
      [⟨.statement command command.items none, [.ofToken none t]⟩] := by
  rw [start, stack_take _ _ _ (s.stack_enter_atRest _ h), fillers_of_pending_nil (by simp)]
  rfl

theorem segments_start (command : Command) (t : Token) (rest : Text) :
    (s.start command t rest).segments = s.flush.segments := by
  rw [start, segments_take _ _ _ (by simp), segments_enter_atRest]

theorem stack_setFrame (g : Frame) (h : s.stack = ⟨f, ns⟩ :: below) :
    (s.setFrame g).stack = ⟨g, ns⟩ :: below := by
  unfold setFrame
  rw [h]

theorem stack_close (fault : Option Fault) (h : s.stack = ⟨f, ns⟩ :: below) :
    (s.close fault).stack = attachTo (.branch f.kind f.field fault ns.reverse) below := by
  unfold close
  rw [h]
  cases below with
  | nil => rfl
  | cons level below => exact stack_attach _ rfl

/-- Closing the outermost node makes it a segment. -/
theorem segments_close_singleton (fault : Option Fault) (h : s.stack = [⟨f, ns⟩]) :
    (s.close fault).segments =
      ⟨.branch f.kind f.field fault ns.reverse, !s.early⟩ :: s.segments := by
  unfold close
  rw [h]

theorem mem_segments_close {g : Segment} {fault : Option Fault} (h : s.stack = ⟨f, ns⟩ :: below)
    (hg : g ∈ (s.close fault).segments) :
    g ∈ s.segments ∨ (below = [] ∧ g.node = .branch f.kind f.field fault ns.reverse) := by
  cases below with
  | nil =>
      rw [s.segments_close_singleton fault h] at hg
      rcases List.mem_cons.1 hg with rfl | hg
      · exact .inr ⟨rfl, rfl⟩
      · exact .inl hg
  | cons level below =>
      rw [s.segments_close_inner fault (frames_of_stack_cons h)] at hg
      exact .inl hg

end State

namespace Action

/-- The open nodes after the action. -/
def levels (f : Frame) (ns fillers : List Node) (t : Token) (below : List Level) :
    Action → List Level
  | .take g field => ⟨g, .ofToken field t :: (fillers ++ ns)⟩ :: below
  | .fill e g => ⟨g, .ofToken none t :: .marker (.missing e) :: (fillers ++ ns)⟩ :: below
  | .descend g child => ⟨child, [.ofToken none t]⟩ :: ⟨g, fillers ++ ns⟩ :: below
  | .finish field =>
      attachTo (.branch f.kind f.field none (.ofToken field t :: (fillers ++ ns)).reverse) below
  | .abort fault | .stop fault => attachTo (.branch f.kind f.field (some fault) ns.reverse) below
  | .lack fault => attachTo (.branch f.kind f.field none (.marker fault :: ns).reverse) below
  | .abandon fault g => ⟨g, .marker fault :: ns⟩ :: below
  | .recover found recovery _ => ⟨.unexpected found recovery 0, []⟩ :: ⟨f, fillers ++ ns⟩ :: below

/-- The node that the action closes. -/
def closed (f : Frame) (ns fillers : List Node) (t : Token) : Action → Option Node
  | .finish field =>
      some (.branch f.kind f.field none (.ofToken field t :: (fillers ++ ns)).reverse)
  | .abort fault | .stop fault => some (.branch f.kind f.field (some fault) ns.reverse)
  | .lack fault => some (.branch f.kind f.field none (.marker fault :: ns).reverse)
  | _ => none

variable {a : Action} {s : State} {look : Lookahead} {f : Frame} {ns : List Node}
  {below : List Level} {t : Token}

theorem stack_run (hs : s.stack = ⟨f, ns⟩ :: below)
    (hl : a.takes = true → ∃ rest, look = some (t, rest)) :
    (a.run s look).stack = a.levels f ns s.fillers t below := by
  cases a with
  | take g field =>
      obtain ⟨rest, rfl⟩ := hl rfl
      rw [run, State.stack_take _ _ _ (s.stack_setFrame g hs), State.fillers_setFrame, levels]
  | fill e g =>
      obtain ⟨rest, rfl⟩ := hl rfl
      have hmark : (s.flush.mark (.missing e)).stack =
          ⟨f, .marker (.missing e) :: (s.fillers ++ ns)⟩ :: below :=
        State.stack_attach _ (State.stack_flush_cons hs)
      rw [run, State.stack_take _ _ _ (State.stack_setFrame g hmark),
        State.fillers_of_pending_nil (by simp), List.nil_append, levels]
  | descend g child =>
      obtain ⟨rest, rfl⟩ := hl rfl
      rw [run, State.stack_take _ _ _ (State.stack_enter child (s.stack_setFrame g hs)),
        State.fillers_of_pending_nil (by simp), State.fillers_setFrame]
      rfl
  | finish field =>
      obtain ⟨rest, rfl⟩ := hl rfl
      exact State.stack_close none (s.stack_take field t rest hs)
  | abort fault => exact State.stack_close (s := s.closeEarly) (some fault) hs
  | stop fault => exact State.stack_close (some fault) hs
  | lack fault => exact State.stack_close none (s.stack_attach _ hs)
  | abandon fault g => exact State.stack_setFrame g (s.stack_attach (.marker fault) hs)
  | recover found recovery header =>
      cases header with
      | false => exact s.stack_enter _ hs
      | true => exact State.stack_enter (s := s.closeEarly) _ hs

/-- What holds of the children before, of tokens and markers, and of what is closed holds of the
children after. -/
theorem forall_children_levels {p : Node → Prop} {fillers : List Node} (hns : ∀ n ∈ ns, p n)
    (hfillers : ∀ n ∈ fillers, p n) (hbelow : ∀ level ∈ below, ∀ n ∈ level.children, p n)
    (htoken : ∀ field, p (.ofToken field t)) (hmarker : ∀ fault, p (.marker fault))
    (hclosed : ∀ n, a.closed f ns fillers t = some n → p n) :
    ∀ level ∈ a.levels f ns fillers t below, ∀ n ∈ level.children, p n := by
  have hflush : ∀ n ∈ fillers ++ ns, p n := List.forall_mem_append.2 ⟨hfillers, hns⟩
  have hattach : ∀ n, p n → ∀ level ∈ attachTo n below, ∀ m ∈ level.children, p m := by
    intro n hn
    rcases below with - | ⟨⟨g, ms⟩, below⟩
    · simp [attachTo]
    · obtain ⟨hms, hbelow⟩ := List.forall_mem_cons.1 hbelow
      exact List.forall_mem_cons.2 ⟨List.forall_mem_cons.2 ⟨hn, hms⟩, hbelow⟩
  cases a with
  | take g field =>
      exact List.forall_mem_cons.2 ⟨List.forall_mem_cons.2 ⟨htoken field, hflush⟩, hbelow⟩
  | fill e g =>
      refine List.forall_mem_cons.2 ⟨List.forall_mem_cons.2 ⟨htoken none, ?_⟩, hbelow⟩
      exact List.forall_mem_cons.2 ⟨hmarker _, hflush⟩
  | descend g child =>
      refine List.forall_mem_cons.2 ⟨List.forall_mem_singleton.2 (htoken none), ?_⟩
      exact List.forall_mem_cons.2 ⟨hflush, hbelow⟩
  | finish field => exact hattach _ (hclosed _ rfl)
  | abort fault => exact hattach _ (hclosed _ rfl)
  | stop fault => exact hattach _ (hclosed _ rfl)
  | lack fault => exact hattach _ (hclosed _ rfl)
  | abandon fault g =>
      exact List.forall_mem_cons.2 ⟨List.forall_mem_cons.2 ⟨hmarker fault, hns⟩, hbelow⟩
  | recover found recovery header =>
      exact List.forall_mem_cons.2 ⟨by simp, List.forall_mem_cons.2 ⟨hflush, hbelow⟩⟩

theorem mem_segments_run {g : Segment} (hs : s.stack = ⟨f, ns⟩ :: below)
    (hl : a.takes = true → ∃ rest, look = some (t, rest)) (hg : g ∈ (a.run s look).segments) :
    g ∈ s.segments ∨ (below = [] ∧ a.closed f ns s.fillers t = some g.node) := by
  have hne : s.frames ≠ [] := by simp [frames_of_stack_cons hs]
  have hclose : ∀ (u : State) (fault : Option Fault) (ms : List Node),
      u.stack = ⟨f, ms⟩ :: below → u.segments = s.segments → g ∈ (u.close fault).segments →
        g ∈ s.segments ∨ (below = [] ∧ some (.branch f.kind f.field fault ms.reverse) =
          some g.node) := by
    intro u fault ms hu hsegs hg
    rcases u.mem_segments_close hu hg with hg | ⟨hnil, hnode⟩
    · exact .inl (hsegs ▸ hg)
    · exact .inr ⟨hnil, congrArg some hnode.symm⟩
  have hopen : a.frames s.frames ≠ [] → g ∈ s.segments := by
    intro hframes
    have hlook : a.takes = true → look.isSome = true := by
      intro ht
      obtain ⟨rest, rfl⟩ := hl ht
      rfl
    rw [frames_of_stack_cons hs] at hframes
    rcases segments_run (frames_of_stack_cons hs) hlook with ⟨-, hsegs⟩ | ⟨hnil, -⟩
    · exact hsegs ▸ hg
    · exact absurd hnil hframes
  cases a with
  | finish field =>
      obtain ⟨rest, rfl⟩ := hl rfl
      exact hclose _ none _ (s.stack_take field t rest hs) (State.segments_take _ _ _ hne) hg
  | abort fault => exact hclose s.closeEarly (some fault) ns hs rfl hg
  | stop fault => exact hclose s (some fault) ns hs rfl hg
  | lack fault => exact hclose _ none _ (s.stack_attach _ hs) (State.segments_mark _ hne) hg
  | _ => exact .inl (hopen (by simp [frames]))

/-- A node is closed with a child, at least the token it was closed with. -/
theorem children_closed {fillers : List Node} {n : Node} (h : a.takes = false → ns ≠ [])
    (hn : a.closed f ns fillers t = some n) : n.children ≠ [] := by
  cases a <;> cases hn
  all_goals simp_all [children, takes]

/-- An action makes fillers children or leaves them aside. -/
theorem pending_run (a : Action) (s : State) (look : Lookahead) :
    (a.run s look).pending = [] ∨ (a.run s look).pending = s.pending := by
  cases a <;> rcases look with - | ⟨t, rest⟩ <;> simp [run]

/-- A flaw stays on the stack, and what is not clean puts one there. -/
theorem flawed_levels {fillers : List Node} (ha : a.Suits f)
    (h : (Level.mk f ns :: below).any Level.flawed = true ∨ a.isClean = false)
    (hne : a.levels f ns fillers t below ≠ []) :
    (a.levels f ns fillers t below).any Level.flawed = true := by
  have hmore : ∀ (g : Frame) (ms : List Node), g.kind = f.kind →
      (Level.mk f ns :: below).any Level.flawed = true →
        (Level.mk g (ms ++ ns) :: below).any Level.flawed = true := by
    intro g ms hk hflawed
    simp only [List.any_cons, Level.flawed, hk, List.any_append, Bool.or_eq_true] at hflawed ⊢
    grind
  have hclose : ∀ n : Node, n.flawed = true ∨ below.any Level.flawed = true →
      attachTo n below ≠ [] → (attachTo n below).any Level.flawed = true := by
    rintro n hn hbelow
    rcases below with - | ⟨⟨g, ms⟩, below⟩
    · exact absurd rfl hbelow
    · simp only [attachTo, List.any_cons, Level.flawed, Bool.or_eq_true] at hn ⊢
      grind
  cases a with
  | take g field =>
      exact hmore g (.ofToken field t :: fillers) ha (h.resolve_right (by simp [isClean]))
  | fill e g => simp [levels, Level.flawed]
  | descend g child =>
      have := hmore g fillers ha.1 (h.resolve_right (by simp [isClean]))
      simp only [levels, List.any_cons (a := Level.mk child _), this, Bool.or_true]
  | finish field =>
      refine hclose _ ?_ hne
      have hflawed := h.resolve_right (by simp [isClean])
      have hkind : f.kind ≠ .error := ha
      simp only [List.any_cons, Level.flawed, decide_eq_false hkind, Bool.false_or,
        Bool.or_eq_true] at hflawed
      refine hflawed.imp_left ?_
      intro hns
      simp [flawed, flawedAll_eq_any, hns]
  | abort fault => exact hclose _ (.inl (by simp [flawed])) hne
  | stop fault => exact hclose _ (.inl (by simp [flawed])) hne
  | lack fault => exact hclose _ (.inl (by simp [flawed, flawedAll_eq_any])) hne
  | abandon fault g => simp [levels, Level.flawed]
  | recover found recovery header => simp [levels, Level.flawed, Frame.kind]

end Action

end Machine

end BibStyle
