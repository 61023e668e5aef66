import BibStyle.Proofs.Graft
import BibStyle.Proofs.LetterCase
import BibStyle.Proofs.Schema
import BibStyle.Proofs.Table

/-!
# Trees do not depend on letter case

The machine sees a text through the kinds of its tokens, through their sizes, and where a statement
starts through the command that a keyword names. None of these tells capitals from small letters. So
the run on a text in small letters is the run on the text, with the letters in it made small
(`step_lower`), and comes to the same nodes at the same places (`segments_parse_lower`). Two texts
that differ in case only have the same small letters, and with them the same tables.
-/

namespace BibStyle

open Text

namespace Node

mutual

/-- The node with the letters of its text made small. -/
def lower : Node → Node
  | .leaf k f t => .leaf k f (Text.lower t)
  | .branch k f e cs => .branch k f e (lowerAll cs)

def lowerAll : List Node → List Node
  | [] => []
  | n :: ns => lower n :: lowerAll ns

end

theorem lowerAll_eq_map (ns : List Node) : lowerAll ns = ns.map lower := by
  induction ns with
  | nil => simp [lowerAll]
  | cons n ns ih => simp [lowerAll, ih]

@[simp] theorem lower_ofToken (field : Option Field) (t : Token) :
    (ofToken field t).lower = ofToken field t.lower := by simp [ofToken, lower]

@[simp] theorem lower_marker (fault : Fault) : (marker fault).lower = marker fault := by
  simp [marker, lower, lowerAll]

theorem lower_branch (k : NodeKind) (f : Option Field) (e : Option Fault) (ns : List Node) :
    (branch k f e ns).lower = branch k f e (ns.map lower) := by
  rw [lower, lowerAll_eq_map]

end Node

def Segment.lower (g : Segment) : Segment := ⟨g.node.lower, g.complete⟩

/-! ## The table of a node -/

namespace Node

theorem kind_lower (n : Node) : n.lower.kind = n.kind := by cases n <;> simp [lower, kind]

theorem field_lower (n : Node) : n.lower.field = n.field := by cases n <;> simp [lower, field]

theorem fault_lower (n : Node) : n.lower.fault = n.fault := by cases n <;> simp [lower, fault]

theorem children_lower (n : Node) : n.lower.children = lowerAll n.children := by
  cases n <;> simp [lower, children, lowerAll]

mutual

theorem size_lower : (n : Node) → n.lower.size = n.size
  | .leaf k f t => by simp [lower]
  | .branch k f e cs => by simpa [lower] using sizeAll_lower cs

theorem sizeAll_lower : (ns : List Node) → sizeAll (lowerAll ns) = sizeAll ns
  | [] => by simp [lowerAll]
  | n :: ns => by simp [lowerAll, size_lower n, sizeAll_lower ns]

end

mutual

theorem flawed_lower : (n : Node) → n.lower.flawed = n.flawed
  | .leaf k f t => by simp [lower, flawed]
  | .branch k f e cs => by simp [lower, flawed, flawedAll_lower cs]

theorem flawedAll_lower : (ns : List Node) → flawedAll (lowerAll ns) = flawedAll ns
  | [] => by simp [lowerAll]
  | n :: ns => by simp [lowerAll, flawedAll, flawed_lower n, flawedAll_lower ns]

end

mutual

theorem count_lower : (n : Node) → n.lower.count = n.count
  | .leaf k f t => by simp [lower, count]
  | .branch k f e cs => by simp [lower, count, countAll_lower cs]

theorem countAll_lower : (ns : List Node) → countAll (lowerAll ns) = countAll ns
  | [] => by simp [lowerAll]
  | n :: ns => by simp [lowerAll, count_lower n, countAll_lower ns]

end

theorem indices_lower (i : Nat) (ns : List Node) : indices i (lowerAll ns) = indices i ns := by
  induction ns generalizing i with
  | nil => simp [lowerAll]
  | cons n ns ih => simp [lowerAll, ih, count_lower]

theorem entry_lower (parent : Option Nat) (i pos : Nat) (n : Node) :
    n.lower.entry parent i pos = n.entry parent i pos := by
  simp [entry, kind_lower, field_lower, fault_lower, size_lower, flawed_lower, children_lower,
    indices_lower]

mutual

/-- The entries of a node say nothing of its letters. -/
theorem entries_lower (parent : Option Nat) (i pos : Nat) : (n : Node) →
    n.lower.entries parent i pos = n.entries parent i pos
  | .leaf k f t => by
      rw [entries_eq, entries_eq, entry_lower]
      simp [lower, children]
  | .branch k f e cs => by
      rw [entries_eq, entries_eq, entry_lower, children_lower, children,
        entriesAll_lower i (i + 1) pos cs]

theorem entriesAll_lower (p i pos : Nat) : (ns : List Node) →
    entriesAll p i pos (lowerAll ns) = entriesAll p i pos ns
  | [] => by simp [lowerAll]
  | n :: ns => by
      simp [lowerAll, entries_lower (some p) i pos n, count_lower, size_lower,
        entriesAll_lower p (i + n.count) (pos + n.size) ns]

end

end Node

@[simp] theorem Segment.table_lower (g : Segment) : g.lower.table = g.table := by
  rw [table_eq, table_eq]
  exact g.node.entries_lower none 0 0

@[simp] theorem Segment.size_lower (g : Segment) : g.lower.size = g.size := g.node.size_lower

/-! ## Runs -/

namespace Machine

def Level.lower (l : Level) : Level := ⟨l.frame, l.children.map Node.lower⟩

namespace State

/-- The state with all letters made small, those that are read and those still to be read. -/
def lower (s : State) : State :=
  ⟨s.rest.lower, s.pos, s.pending.map Token.lower, s.stack.map Level.lower, s.early,
    s.segments.map Segment.lower⟩

section Operations

variable (s : State)

@[simp] theorem rest_lower : s.lower.rest = s.rest.lower := rfl

@[simp] theorem pos_lower : s.lower.pos = s.pos := rfl

@[simp] theorem pending_lower : s.lower.pending = s.pending.map Token.lower := rfl

@[simp] theorem stack_lower : s.lower.stack = s.stack.map Level.lower := rfl

@[simp] theorem early_lower : s.lower.early = s.early := rfl

@[simp] theorem segments_lower : s.lower.segments = s.segments.map Segment.lower := rfl

@[simp] theorem mode_lower : s.lower.mode = s.mode := by
  unfold mode
  rw [stack_lower]
  cases s.stack <;> rfl

@[simp] theorem isSettled_lower : s.lower.isSettled = s.isSettled := by
  unfold isSettled
  rw [stack_lower]
  rcases s.stack with - | ⟨⟨frame, ns⟩, below⟩
  · rfl
  · rcases frame with ⟨command, items, slot⟩ | _ | _ | _ | _
    · cases slot <;> rfl
    all_goals rfl

@[simp] theorem attach_lower (n : Node) : s.lower.attach n.lower = (s.attach n).lower := by
  obtain ⟨rest, pos, pending, stack, early, segments⟩ := s
  cases stack <;> rfl

@[simp] theorem flush_lower : s.lower.flush = s.flush.lower := by
  unfold flush
  have hbase : ({ s.lower with pending := [] } : State) =
      ({ s with pending := [] } : State).lower := rfl
  rw [hbase, pending_lower]
  generalize ({ s with pending := [] } : State) = u
  induction s.pending with
  | nil => rfl
  | cons t ts ih =>
      rw [List.map_cons, List.foldr_cons, List.foldr_cons, ih, ← Node.lower_ofToken, attach_lower]

@[simp] theorem mark_lower (fault : Fault) : s.lower.mark fault = (s.mark fault).lower := by
  rw [mark, ← Node.lower_marker, attach_lower]
  rfl

@[simp] theorem setFrame_lower (frame : Frame) :
    s.lower.setFrame frame = (s.setFrame frame).lower := by
  obtain ⟨rest, pos, pending, stack, early, segments⟩ := s
  cases stack <;> rfl

@[simp] theorem closeEarly_lower : s.lower.closeEarly = s.closeEarly.lower := rfl

@[simp] theorem close_lower (fault : Option Fault) :
    s.lower.close fault = (s.close fault).lower := by
  obtain ⟨rest, pos, pending, stack, early, segments⟩ := s
  rcases stack with - | ⟨⟨frame, ns⟩, below⟩
  · rfl
  · have hnode : Node.branch frame.kind frame.field fault (ns.map Node.lower).reverse =
        (Node.branch frame.kind frame.field fault ns.reverse).lower := by
      rw [Node.lower_branch, List.map_reverse]
    cases below with
    | nil => simp [close, lower, Level.lower, Segment.lower, hnode]
    | cons level below =>
        simp only [close, lower, Level.lower, List.map_cons, hnode]
        exact attach_lower ⟨rest, pos, pending, level :: below, early, segments⟩ _

@[simp] theorem skip_lower (t : Token) (rest : Text) :
    s.lower.skip t.lower rest.lower = (s.skip t rest).lower := by
  simp [skip, lower]

@[simp] theorem take_lower (field : Option Field) (t : Token) (rest : Text) :
    s.lower.take field t.lower rest.lower = (s.take field t rest).lower := by
  simp only [take, flush_lower, ← Node.lower_ofToken, attach_lower]
  simp [lower]

@[simp] theorem enter_lower (frame : Frame) :
    s.lower.enter frame = (s.enter frame).lower := by
  simp only [enter, flush_lower]
  rfl

@[simp] theorem atRest_lower : s.lower.atRest = s.atRest.lower := by
  simp only [atRest, flush_lower]
  rfl

theorem start_lower (command : Command) (t : Token) (rest : Text) :
    s.lower.start command t.lower rest.lower = (s.start command t rest).lower := by
  simp only [start, atRest_lower, enter_lower, take_lower]

end Operations

end State

/-- The next token with its letters made small. -/
def Lookahead.lower (look : Lookahead) : Lookahead := look.map fun p => (p.1.lower, p.2.lower)

theorem Action.run_lower (a : Action) (s : State) (look : Lookahead) :
    a.run s.lower look.lower = (a.run s look).lower := by
  rcases look with - | ⟨t, rest⟩
  · cases a <;> simp [run, Lookahead.lower]
    split <;> simp
  · cases a <;> simp [run, Lookahead.lower]
    split <;> simp

def Step.lower : Step → Step
  | .next s => .next s.lower
  | .done segs resumed => .done (segs.map Segment.lower) resumed

theorem solid_lower {look : Lookahead} (h : Solid look) : Solid look.lower := by
  intro p hp
  obtain ⟨q, hq, rfl⟩ := Option.map_eq_some_iff.1 hp
  exact h q hq

theorem atTop_lower (resume : Nat → Option Nat) (s : State) :
    atTop resume s.lower (Lookahead.lower (lex .normal s.rest)) =
      (atTop resume s (lex .normal s.rest)).lower := by
  cases hl : lex .normal s.rest with
  | none => simp [atTop, Step.lower, Lookahead.lower]
  | some look =>
      obtain ⟨t, rest⟩ := look
      rw [Lookahead.lower, Option.map_some]
      by_cases hk : t.kind = .keyword
      · obtain ⟨command, hc⟩ := ofWord?_of_keyword hl hk
        have hc' : Command.ofWord? t.lower.text = some command := by simpa using hc
        rw [atTop_keyword hk hc, atTop_keyword (t := t.lower) hk hc', State.pos_lower]
        cases resume s.pos with
        | none => simp [Step.lower, State.start_lower]
        | some i => simp [Step.lower]
      · rw [atTop_of_ne_keyword hk, atTop_of_ne_keyword (t := t.lower) hk]
        simp [Step.lower, State.recover]

/-- A step in small letters is the step, with the letters made small. -/
theorem step_lower (resume : Nat → Option Nat) (s : State) :
    step resume s.lower = (step resume s).lower := by
  have hset := s.isSettled_lower
  cases hs : s.isSettled with
  | true =>
      rw [hs] at hset
      rw [step_of_isSettled hs, step_of_isSettled hset, State.close_lower]
      rfl
  | false =>
      rw [hs] at hset
      have hlex : lex s.lower.mode s.lower.rest = Lookahead.lower (lex s.mode s.rest) := by
        rw [State.mode_lower, State.rest_lower, lex_lower]
        rfl
      rcases solid_or_filler (lex s.mode s.rest) with hsolid | ⟨t, rest, hl, hf⟩
      · cases hstack : s.stack with
        | cons level below =>
            have hstack' : s.lower.stack = level.lower :: below.map Level.lower := by simp [hstack]
            have hd : s.lower.decision level.frame = s.decision level.frame := by
              rw [State.decision, hlex, Lookahead.lower, Option.map_map, State.decision]
              rfl
            rw [step_of_stack_cons hs hstack hsolid,
              step_of_stack_cons hset hstack' (hlex ▸ solid_lower hsolid), hlex]
            show Step.next ((s.lower.decision level.frame).run _ _) = _
            rw [hd, Action.run_lower]
            rfl
        | nil =>
            have hstack' : s.lower.stack = [] := by simp [hstack]
            rw [mode_of_stack_nil hstack'] at hlex
            rw [mode_of_stack_nil hstack] at hsolid hlex
            rw [step_of_stack_nil hstack hsolid,
              step_of_stack_nil hstack' (hlex ▸ solid_lower hsolid), hlex]
            exact atTop_lower resume s
      · rw [hl] at hlex
        rw [step_of_filler hs hl hf, step_of_filler (t := t.lower) hset hlex hf, State.skip_lower]
        rfl

theorem Ends.lower {resume : Nat → Option Nat} {s : State} {r : List Segment × Option Nat}
    (h : Ends resume s r) : Ends resume s.lower (r.1.map Segment.lower, r.2) := by
  induction h with
  | done hd => exact .done (by rw [step_lower, hd]; rfl)
  | next hn _ ih => exact .next (by rw [step_lower, hn]; rfl) ih

end Machine

namespace Tree

/-- The parse of a text in small letters is the parse of the text, with the letters made small. -/
theorem segments_parse_lower (t : Text) :
    (parse t.lower).segments = (parse t).segments.map Segment.lower :=
  segments_eq_of_ends (ends_parse t).lower

end Tree

/-! ## Trees without their texts -/

/-- What a placed node shows besides its text. -/
def Located.shape (l : Located) : Kind × Option Field × Span × Option Fault × Bool :=
  (l.kind, l.field, l.span, l.fault, l.flawed)

namespace Node

theorem shape_locate_lower (pos : Nat) (n : Node) :
    (n.lower.locate pos).shape = (n.locate pos).shape := by
  simp [Located.shape, Located.kind, Located.field, Located.fault, span_locate, flawed_locate,
    kind_lower, field_lower, fault_lower, size_lower, flawed_lower]

mutual

theorem map_shape_preorder_lower (pos : Nat) : (n : Node) →
    (n.lower.locate pos).preorder.map Located.shape = (n.locate pos).preorder.map Located.shape
  | .leaf k f t => by
      have hroot := shape_locate_lower pos (.leaf k f t)
      rw [lower] at hroot ⊢
      rw [preorder_locate_leaf, preorder_locate_leaf, List.map_singleton, List.map_singleton, hroot]
  | .branch k f e cs => by
      have hroot := shape_locate_lower pos (.branch k f e cs)
      rw [lower] at hroot ⊢
      rw [preorder_locate_branch, preorder_locate_branch, List.map_cons, List.map_cons, hroot,
        map_shape_preorderAll_lower pos cs]

theorem map_shape_preorderAll_lower (pos : Nat) : (ns : List Node) →
    (Located.preorderAll (locateAll pos (lowerAll ns)) []).map Located.shape =
      (Located.preorderAll (locateAll pos ns) []).map Located.shape
  | [] => by simp [lowerAll]
  | n :: ns => by
      rw [lowerAll, preorderAll_locateAll_cons, preorderAll_locateAll_cons, List.map_append,
        List.map_append, map_shape_preorder_lower pos n, size_lower,
        map_shape_preorderAll_lower (pos + n.size) ns]

end

end Node

namespace Tree

/-- The trees are the same but for the texts of their nodes. -/
structure Alike (t u : Tree) : Prop where
  /-- The segments have the same nodes and are complete or not alike. -/
  segments : t.segments.map (fun g => (g.table, g.complete)) =
    u.segments.map fun g => (g.table, g.complete)
  offsets : t.offsets = u.offsets
  /-- The nodes of the whole trees have the same kinds, fields, spans and faults. -/
  nodes : t.root.preorder.map Located.shape = u.root.preorder.map Located.shape

theorem offsetsFrom_map_lower (pos : Nat) (segs : List Segment) :
    offsetsFrom pos (segs.map Segment.lower) = offsetsFrom pos segs := by
  induction segs generalizing pos with
  | nil => rfl
  | cons g segs ih => simp [ih]

/-- A text in small letters has the tree of the text. -/
theorem alike_parse_lower (t : Text) : (parse t.lower).Alike (parse t) where
  segments := by
    rw [segments_parse_lower, List.map_map]
    refine List.map_congr_left ?_
    intro g _
    exact Prod.ext g.table_lower rfl
  offsets := by
    rw [offsets, segments_parse_lower]
    exact offsetsFrom_map_lower 0 _
  nodes := by
    have hnodes := Node.map_shape_preorder_lower 0
      (.branch .sourceFile none none ((parse t).segments.map (·.node)))
    rw [Node.lower_branch, List.map_map] at hnodes
    rw [root, segments_parse_lower, List.map_map]
    exact hnodes

/-- Two texts that differ in the case of ASCII letters only have the same tokens at every place, in
both modes, and the same tree, but for the texts of tokens and nodes. -/
theorem alike_parse_of_sameButCase {t u : Text} (h : t.SameButCase u) :
    (∀ m pos, (lexAt m pos t).map (fun p => (p.1, p.2.kind)) =
      (lexAt m pos u).map fun p => (p.1, p.2.kind)) ∧
    (parse t).Alike (parse u) := by
  have hlower := h.lower_eq
  constructor
  · intro m pos
    have hlex : ∀ t : Text, (lexAt m pos t.lower).map (fun p => (p.1, p.2.kind)) =
        (lexAt m pos t).map fun p => (p.1, p.2.kind) := by
      intro t
      rw [lexAt_lower, Option.map_map]
      rfl
    rw [← hlex t, ← hlex u, hlower]
  · have ht := alike_parse_lower t
    have hu := alike_parse_lower u
    rw [← hlower] at hu
    exact ⟨ht.segments.symm.trans hu.segments, ht.offsets.symm.trans hu.offsets,
      ht.nodes.symm.trans hu.nodes⟩

/-- A keyword, a builtin, and a stray umlaut, which is the same in both texts. -/
theorem alike_parse_of_sameButCase_function :
    Text.SameButCase "FUNCTION \x7bf\x7d \x7b Add$ Ü".toList
      "funcTION \x7bF\x7d \x7b aDD$ Ü".toList ∧
    (parse "FUNCTION \x7bf\x7d \x7b Add$ Ü".toList).Alike
      (parse "funcTION \x7bF\x7d \x7b aDD$ Ü".toList) :=
  have hsame : Text.SameButCase "FUNCTION \x7bf\x7d \x7b Add$ Ü".toList
      "funcTION \x7bF\x7d \x7b aDD$ Ü".toList := by decide
  ⟨hsame, (alike_parse_of_sameButCase hsame).2⟩

end Tree

end BibStyle
