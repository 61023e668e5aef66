import BibStyle.Proofs.Conformance
import BibStyle.Proofs.Reading
import BibStyle.Proofs.Table
import Mathlib.Algebra.Order.Ring.Nat
import Mathlib.Logic.Relation

/-!
# What the machine orders from builders

The machine keeps its open nodes with their children. Instead, it can leave the nodes of a segment
to a builder, which is told of one event after the other: a node is entered, a token comes, a marker
is put, the innermost node is closed. The builder is new when the segment begins, and what it has
built is stored when the outermost node is closed. This file says what each step orders
(`Machine.orders`), beside what it does to the state. A node that is entered is to start at the next
token, behind the fillers set aside.

Both agree: the orders up to a state are those for its finished segments, followed by those for the
nodes that are open, from the outermost in (`State.ordered`), each at the byte behind what comes
before it. That these bytes are the ones ordered rests on one invariant: what is attached and set
aside goes up to the next token (`State.Placed`). A step adds its orders to those up to the state
(`ordered_of_step`), so the orders of a parse are those for its segments, each in preorder
(`Tree.orders_eq_ordersAll`).
-/

namespace BibStyle

/-- What the machine does with the builder it has at hand. -/
inductive Order where
  /-- Take a new builder, for a segment that starts at byte `base`. -/
  | begin (base : Nat)
  | tell (e : Event)
  /-- Store what the builder has built as a segment. -/
  | store
deriving DecidableEq

open Node

namespace Segment

/-- The orders for the segment at byte `pos`. -/
def orders (pos : Nat) (g : Segment) : List Order :=
  .begin pos :: ((g.node.events pos).map .tell ++ [.store])

/-- The orders for segments that follow one another from byte `pos` on. -/
def ordersAll (pos : Nat) : List Segment → List Order
  | [] => []
  | g :: gs => g.orders pos ++ ordersAll (pos + g.size) gs

theorem ordersAll_append (pos : Nat) (gs hs : List Segment) :
    ordersAll pos (gs ++ hs) =
      ordersAll pos gs ++ ordersAll (pos + sizeAll (gs.map (·.node))) hs := by
  induction gs generalizing pos with
  | nil => simp [ordersAll]
  | cons g gs ih => simp [ordersAll, ih, Nat.add_assoc, size]

theorem ordersAll_singleton (pos : Nat) (g : Segment) : ordersAll pos [g] = g.orders pos := by
  simp [ordersAll]

end Segment

/-- A filler in its place. -/
def Event.filler (p : Span × Token) : Event := .token p.2.kind none p.1

theorem Node.eventsAll_map_ofToken (pos : Nat) (ts : List Token) :
    eventsAll pos (ts.map (ofToken none)) = (Token.place pos ts).map .filler := by
  induction ts generalizing pos with
  | nil => simp
  | cons t ts ih =>
      rw [List.map_cons, eventsAll_cons, ih, events_ofToken, ofToken, size_leaf]
      rfl

theorem Node.sizeAll_map_ofToken (ts : List Token) :
    sizeAll (ts.map (ofToken none)) = (ts.map Token.size).sum := by
  induction ts with
  | nil => simp
  | cons t ts ih =>
      rw [List.map_cons, sizeAll_cons, ih, ofToken, size_leaf]
      rfl

theorem Segment.ordersAll_map_fillerSegment (pos : Nat) (ts : List Token) :
    ordersAll pos (ts.map Machine.State.fillerSegment) =
      (Token.place pos ts).flatMap fun p => [.begin p.1.start, .tell (.filler p), .store] := by
  induction ts generalizing pos with
  | nil => rfl
  | cons t ts ih =>
      have hsize : (Machine.State.fillerSegment t).size = t.size := size_leaf _ _ _
      rw [List.map_cons, ordersAll, ih, hsize, orders, Machine.State.fillerSegment, events_ofToken]
      rfl

namespace Machine

/-! ## What a step orders -/

/-- The fillers set aside, in the places where they stand before the next token. -/
def State.placed (s : State) : List (Span × Token) :=
  Token.place (s.pos - (s.pending.map Token.size).sum) s.pending.reverse

/-- What the builder is told in the course of an action. -/
def Action.events (a : Action) (s : State) (look : Lookahead) : List Event :=
  let fillers := s.placed.map .filler
  match a, look with
  | .take _ field, some (t, _) => fillers ++ [.ofToken field s.pos t]
  | .fill missing _, some (t, _) => fillers ++ [.mark (.missing missing), .ofToken none s.pos t]
  | .descend _ child, some (t, _) =>
      fillers ++ [.enter child.kind child.field s.pos, .ofToken none s.pos t]
  | .finish field, some (t, _) => fillers ++ [.ofToken field s.pos t, .close none]
  | .abort fault, _ | .stop fault, _ => [.close (some fault)]
  | .lack fault, _ => [.mark fault, .close none]
  | .abandon fault _, _ => [.mark fault]
  | .recover .., _ => fillers ++ [.enter .error none s.pos]
  | .take .., none | .fill .., none | .descend .., none | .finish .., none => []

/-- The orders inside a segment. It is stored when nothing is open any more. -/
def inside (events : List Event) (after : State) : List Order :=
  events.map .tell ++ if after.stack.isEmpty then [.store] else []

/-- The orders between statements, where each filler set aside makes a segment. -/
def topOrders (resume : Nat → Option Nat) (s : State) (look : Lookahead) : List Order :=
  (s.placed.flatMap fun p => [.begin p.1.start, .tell (.filler p), .store]) ++
    match look with
    | none => []
    | some (t, _) =>
        match t.kind, Command.ofWord? t.text with
        | .keyword, some command =>
            if (resume s.pos).isSome then []
            else
              [.begin s.pos, .tell (.enter (.statement command) none s.pos),
                .tell (.ofToken none s.pos t)]
        | _, _ => [.begin s.pos, .tell (.enter .error none s.pos)]

/-- What the next step orders. -/
def orders (resume : Nat → Option Nat) (s : State) : List Order :=
  let look := lex s.mode s.rest
  if s.isSettled then inside [.close none] (s.close none)
  else if look.any (·.1.kind.isFiller) then []
  else
    match s.stack with
    | level :: _ =>
        let a := s.decision level.frame
        inside (a.events s look) (a.run s look)
    | [] => topOrders resume s look

/-- What is ordered in at most `fuel` steps. -/
def log (resume : Nat → Option Nat) : Nat → State → List Order
  | 0, _ => []
  | fuel + 1, s => orders resume s ++
      match step resume s with
      | .next s => log resume fuel s
      | .done _ _ => []

/-! ## What has been ordered -/

/-- The bytes under the nodes that are open. -/
def openSize : List Level → Nat
  | [] => 0
  | ⟨_, ns⟩ :: below => openSize below + sizeAll ns.reverse

/-- The events for the nodes that are open, the outermost of which starts at byte `pos`. -/
def openEvents (pos : Nat) : List Level → List Event
  | [] => []
  | ⟨f, ns⟩ :: below =>
      openEvents pos below ++ .enter f.kind f.field (pos + openSize below) ::
        eventsAll (pos + openSize below) ns.reverse

def openOrders (pos : Nat) (stack : List Level) : List Order :=
  if stack.isEmpty then [] else .begin pos :: (openEvents pos stack).map .tell

namespace State

/-- Where the finished segments end if the first starts at byte `start`. -/
def base (start : Nat) (s : State) : Nat := start + sizeAll (s.segments.reverse.map (·.node))

/-- The orders for the segments that are finished, from byte `start` on, and for the nodes that are
open. -/
def ordered (start : Nat) (s : State) : List Order :=
  Segment.ordersAll start s.segments.reverse ++ openOrders (s.base start) s.stack

variable {s : State} {start : Nat}

theorem ordered_of_nil (h : s.stack = []) :
    s.ordered start = Segment.ordersAll start s.segments.reverse := by
  simp [ordered, openOrders, h]

theorem ordered_of_ne_nil (h : s.stack ≠ []) :
    s.ordered start = Segment.ordersAll start s.segments.reverse ++
      .begin (s.base start) :: (openEvents (s.base start) s.stack).map .tell := by
  simp [ordered, openOrders, h]

end State

theorem openEvents_attachTo (pos : Nat) (n : Node) {below : List Level} (h : below ≠ []) :
    openEvents pos (attachTo n below) =
      openEvents pos below ++ n.events (pos + openSize below) := by
  rcases below with - | ⟨⟨g, ms⟩, below⟩
  · exact absurd rfl h
  · simp [attachTo, openEvents, openSize, Nat.add_assoc]

/-! ## Places -/

namespace State

/-- What is attached from byte `start` on, and the fillers set aside, go up to the next token. -/
def Placed (start : Nat) (s : State) : Prop :=
  s.pos = s.base start + openSize s.stack + sizeAll s.fillers.reverse

theorem size_open (stack : List Level) :
    Text.size ((stack.reverse.flatMap fun level => leavesAll level.children.reverse).flatMap
      Token.text) = openSize stack := by
  induction stack with
  | nil => simp [openSize]
  | cons level below ih =>
      rw [List.reverse_cons, List.flatMap_append, List.flatMap_append, Text.size_append, ih,
        List.flatMap_singleton, size_textAll]
      rfl

theorem size_tokens (s : State) : Text.size (s.tokens.flatMap Token.text) =
    sizeAll (s.segments.reverse.map (·.node)) + openSize s.stack + sizeAll s.fillers.reverse := by
  have hpending : s.pending.reverse = leavesAll s.fillers.reverse := by
    rw [fillers, ← List.map_reverse]
    induction s.pending.reverse with
    | nil => simp
    | cons t ts ih => simp [← ih]
  rw [tokens, attached, hpending, List.flatMap_append, List.flatMap_append, Text.size_append,
    Text.size_append, size_textAll, size_textAll, size_open]

variable {s : State} {start : Nat}

theorem placed_iff :
    s.Placed start ↔ s.pos = start + Text.size (s.tokens.flatMap Token.text) := by
  rw [Placed, base, size_tokens, Nat.add_assoc, Nat.add_assoc, Nat.add_assoc]

theorem placed_eq {pos : Nat} (h : s.pos = pos + sizeAll s.fillers.reverse) :
    s.placed = Token.place pos s.pending.reverse := by
  have hsize : sizeAll s.fillers.reverse = (s.pending.map Token.size).sum := by
    rw [fillers, ← List.map_reverse, sizeAll_map_ofToken, List.map_reverse, List.sum_reverse]
  rw [placed, ← hsize, h, Nat.add_sub_cancel]

/-- The events for the fillers are those for the nodes they become. -/
theorem map_filler_placed {pos : Nat} (h : s.pos = pos + sizeAll s.fillers.reverse) :
    s.placed.map .filler = eventsAll pos s.fillers.reverse := by
  rw [placed_eq h, ← eventsAll_map_ofToken, fillers, List.map_reverse]

/-- Between statements, the fillers stand behind the segments. -/
theorem Placed.of_stack_nil (h : s.Placed start) (hs : s.stack = []) :
    s.pos = s.base start + sizeAll s.fillers.reverse := by
  rwa [Placed, hs] at h

end State

theorem placed_init (pos : Nat) (text : Text) : (State.init pos text).Placed pos := by
  simp [State.placed_iff, State.init, State.tokens, State.attached]

theorem Moves.placed {s s' : State} {start : Nat} (hm : Moves s s') (h : s.Placed start) :
    s'.Placed start := State.placed_iff.2 (hm.pos_eq (State.placed_iff.1 h))

namespace Action

variable {a : Action} {s : State} {look : Lookahead} {f : Frame} {ns : List Node}
  {below : List Level} {t : Token} {n : Node}

/-- The node that an action closes is made by the events so far and those of the action. -/
theorem events_closed {pos : Nat}
    (hpos : s.pos = pos + sizeAll ns.reverse + sizeAll s.fillers.reverse)
    (hl : a.takes = true → ∃ rest, look = some (t, rest))
    (hne : a.takes = false → ns ≠ []) (hn : a.closed f ns s.fillers t = some n) :
    n.events pos = .enter f.kind f.field pos :: (eventsAll pos ns.reverse ++ a.events s look) := by
  cases a with
  | finish field =>
      obtain ⟨rest, rfl⟩ := hl rfl
      obtain rfl := Option.some.inj hn
      rw [events_branch _ _ _ _ (by simp)]
      simp [events, State.map_filler_placed hpos, hpos]
  | abort fault =>
      obtain rfl := Option.some.inj hn
      rw [events_branch _ _ _ _ (by simpa using hne rfl), events]
  | stop fault =>
      obtain rfl := Option.some.inj hn
      rw [events_branch _ _ _ _ (by simpa using hne rfl), events]
  | lack fault =>
      obtain rfl := Option.some.inj hn
      rw [events_branch _ _ _ _ (by simp)]
      simp [events]
  | take g field => cases hn
  | fill e g => cases hn
  | descend g child => cases hn
  | abandon fault g => cases hn
  | recover found recovery header => cases hn

/-- The nodes that are open after an action are made by the events so far and those of the action,
unless it closes the outermost. -/
theorem openEvents_levels {pos : Nat}
    (hpos : s.pos = pos + openSize (⟨f, ns⟩ :: below) + sizeAll s.fillers.reverse)
    (hkeeps : a.Keeps f ns.reverse t)
    (hl : a.takes = true → ∃ rest, look = some (t, rest)) (hne : a.takes = false → ns ≠ [])
    (hopen : below = [] → a.closed f ns s.fillers t = none) :
    openEvents pos (a.levels f ns s.fillers t below) =
      openEvents pos (⟨f, ns⟩ :: below) ++ a.events s look := by
  have hpos : s.pos = pos + openSize below + sizeAll ns.reverse + sizeAll s.fillers.reverse := by
    rw [hpos, openSize, ← Nat.add_assoc]
  have hfillers := State.map_filler_placed hpos
  have hclose : ∀ n, a.closed f ns s.fillers t = some n →
      openEvents pos (attachTo n below) =
        openEvents pos (⟨f, ns⟩ :: below) ++ a.events s look := by
    intro n hn
    have hbelow : below ≠ [] := by
      intro hnil
      rw [hopen hnil] at hn
      cases hn
    rw [openEvents_attachTo pos n hbelow, events_closed hpos hl hne hn, openEvents,
      List.append_assoc, List.cons_append]
  cases a with
  | take g field =>
      obtain ⟨rest, rfl⟩ := hl rfl
      obtain ⟨-, -, hkind, hfield⟩ := hkeeps
      simp [levels, events, openEvents, hkind, hfield, hfillers, hpos]
  | fill e g =>
      obtain ⟨rest, rfl⟩ := hl rfl
      obtain ⟨-, hkind, hfield⟩ := hkeeps
      simp [levels, events, openEvents, hkind, hfield, hfillers, hpos]
  | descend g child =>
      obtain ⟨rest, rfl⟩ := hl rfl
      obtain ⟨-, -, hkind, hfield⟩ := hkeeps
      simp [levels, events, openEvents, openSize, hkind, hfield, hfillers, hpos, Nat.add_assoc]
  | finish field => exact hclose _ rfl
  | abort fault => exact hclose _ rfl
  | stop fault => exact hclose _ rfl
  | lack fault => exact hclose _ rfl
  | abandon fault g =>
      obtain ⟨-, -, hkind, hfield⟩ := hkeeps
      simp [levels, events, openEvents, hkind, hfield]
  | recover found recovery header =>
      simp [levels, events, openEvents, openSize, hfillers, hpos, Frame.kind, Frame.field,
        Nat.add_assoc]

/-- Closing the outermost node ends its segment. -/
theorem segments_run_of_closed (hs : s.stack = [⟨f, ns⟩])
    (hl : a.takes = true → ∃ rest, look = some (t, rest))
    (hn : a.closed f ns s.fillers t = some n) :
    (a.run s look).segments = ⟨n, !a.early s.early⟩ :: s.segments := by
  have hne : s.frames ≠ [] := by simp [frames_of_stack_cons hs]
  cases a with
  | finish field =>
      obtain ⟨rest, rfl⟩ := hl rfl
      obtain rfl := Option.some.inj hn
      have hclose := State.segments_close_singleton none (s.stack_take field t rest hs)
      rwa [State.segments_take _ _ _ hne, State.early_take] at hclose
  | abort fault =>
      obtain rfl := Option.some.inj hn
      exact State.segments_close_singleton (s := s.closeEarly) (some fault) hs
  | stop fault =>
      obtain rfl := Option.some.inj hn
      exact State.segments_close_singleton (some fault) hs
  | lack fault =>
      obtain rfl := Option.some.inj hn
      have hclose : ((s.mark fault).close none).segments = _ :=
        State.segments_close_singleton none (s.stack_attach (.marker fault) hs)
      rwa [State.segments_mark _ hne, State.early_mark] at hclose
  | take g field => cases hn
  | fill e g => cases hn
  | descend g child => cases hn
  | abandon fault g => cases hn
  | recover found recovery header => cases hn

theorem levels_of_closed {fillers : List Node} (h : a.closed f ns fillers t = some n) :
    a.levels f ns fillers t below = attachTo n below := by
  cases a <;> cases h <;> rfl

theorem levels_ne_nil {fillers : List Node}
    (h : below = [] → a.closed f ns fillers t = none) : a.levels f ns fillers t below ≠ [] := by
  have hattach : ∀ n, a.closed f ns fillers t = some n → attachTo n below ≠ [] := by
    intro n hn
    rcases below with - | ⟨⟨g, ms⟩, below⟩
    · rw [h rfl] at hn
      cases hn
    · simp [attachTo]
  cases a with
  | finish field => exact hattach _ rfl
  | abort fault => exact hattach _ rfl
  | stop fault => exact hattach _ rfl
  | lack fault => exact hattach _ rfl
  | _ => simp [levels]

end Action

/-! ## Steps -/

section Steps

variable {resume : Nat → Option Nat} {s s' : State} {frame : Frame} {children : List Node}
  {below : List Level} {start : Nat}

theorem any_isFiller_of_solid {look : Lookahead} (h : Solid look) :
    look.any (·.1.kind.isFiller) = false := by
  rcases look with - | ⟨t, rest⟩
  · rfl
  · exact h _ rfl

theorem orders_of_isSettled (h : s.isSettled = true) :
    orders resume s = inside [.close none] (s.close none) := by
  simp [orders, h]

theorem orders_of_filler {t : Token} {rest : Text} (h : s.isSettled = false)
    (hl : lex s.mode s.rest = some (t, rest)) (hf : t.kind.isFiller = true) :
    orders resume s = [] := by
  simp [orders, h, hl, hf]

theorem orders_of_stack_cons (h : s.isSettled = false) (hs : s.stack = ⟨frame, children⟩ :: below)
    (hl : Solid (lex s.mode s.rest)) :
    orders resume s = inside ((s.decision frame).events s (lex s.mode s.rest))
      ((s.decision frame).run s (lex s.mode s.rest)) := by
  simp [orders, h, hs, any_isFiller_of_solid hl]

theorem orders_of_stack_nil (hs : s.stack = []) (hl : Solid (lex .normal s.rest)) :
    orders resume s = topOrders resume s (lex .normal s.rest) := by
  simp [orders, isSettled_of_stack_nil hs, mode_of_stack_nil hs, hs, any_isFiller_of_solid hl]

/-- Between statements, the orders for the fillers are those for the segments they make. -/
theorem ordersAll_flush (hp : s.Placed start) (hs : s.stack = []) :
    Segment.ordersAll start s.flush.segments.reverse = s.ordered start ++
      s.placed.flatMap fun p => [.begin p.1.start, .tell (.filler p), .store] := by
  rw [State.segments_flush_of_stack_nil hs, List.reverse_append, Segment.ordersAll_append,
    ← List.map_reverse, Segment.ordersAll_map_fillerSegment, State.ordered_of_nil hs,
    State.placed_eq (hp.of_stack_nil hs)]
  rfl

/-- Between statements, the segments with those of the fillers go up to the next token. -/
theorem base_flush (hp : s.Placed start) (hs : s.stack = []) : s.flush.base start = s.pos := by
  have hfillers : (s.pending.map State.fillerSegment).map (·.node) = s.fillers := by
    rw [List.map_map]
    rfl
  rw [hp.of_stack_nil hs, State.base, State.segments_flush_of_stack_nil hs, List.map_reverse,
    List.map_append, hfillers, List.reverse_append, sizeAll_append, State.base, List.map_reverse,
    Nat.add_assoc]

theorem ordered_close_of_isSettled (start : Nat) (hw : WellFormed s) (hsound : Sound s)
    (h : s.isSettled = true) :
    (s.close none).ordered start = s.ordered start ++ inside [.close none] (s.close none) := by
  obtain ⟨command, items, ns, hs, -⟩ := hw.stack_of_isSettled h
  have hne : ns.reverse ≠ [] := by simpa using hsound.ne_nil_of_statement hs
  have hstack : (s.close none).stack = [] := s.stack_close none hs
  rw [State.ordered_of_nil hstack, s.segments_close_singleton none hs, List.reverse_cons,
    Segment.ordersAll_append, Segment.ordersAll_singleton, Segment.orders,
    events_branch _ _ _ _ hne, State.ordered_of_ne_nil (by simp [hs])]
  simp [hs, hstack, inside, openEvents, openSize, State.base]

/-- What the innermost open node does adds its orders. -/
theorem ordered_act (hw : WellFormed s) (hsound : Sound s) (hp : s.Placed start)
    (h : s.isSettled = false) (hs : s.stack = ⟨frame, children⟩ :: below)
    (hsolid : Solid (lex s.mode s.rest)) :
    ((s.decision frame).run s (lex s.mode s.rest)).ordered start =
      s.ordered start ++ orders resume s := by
  rw [orders_of_stack_cons h hs hsolid]
  obtain ⟨t, ht, htoken⟩ := Sound.exists_token (lex s.mode s.rest)
  have hl : (s.decision frame).takes = true → ∃ rest, lex s.mode s.rest = some (t, rest) :=
    fun htakes => htoken (isSome_lex_of_takes htakes)
  have hfs := frames_of_stack_cons hs
  have hstack := Action.stack_run hs hl
  have hne := hsound.ne_nil_of_not_takes hw hs
  rw [State.Placed, hs] at hp
  by_cases hopen : below = [] → (s.decision frame).closed frame children s.fillers t = none
  · have hafter := Action.levels_ne_nil hopen
    rw [← hstack] at hafter
    have hsegs : ((s.decision frame).run s (lex s.mode s.rest)).segments = s.segments := by
      rcases Action.segments_run hfs isSome_lex_of_takes with ⟨-, hsegs⟩ | ⟨hnil, -⟩
      · exact hsegs
      · rw [← Action.frames_run hfs isSome_lex_of_takes] at hnil
        exact absurd (State.stack_eq_nil_iff.2 hnil) hafter
    have hkeeps := (hsound.keeps_decision hw h hs hsolid ht).1
    have hevents := Action.openEvents_levels hp hkeeps hl hne hopen
    rw [← hstack, ← hs] at hevents
    have hbase : ((s.decision frame).run s (lex s.mode s.rest)).base start = s.base start := by
      rw [State.base, hsegs, State.base]
    rw [State.ordered_of_ne_nil hafter, State.ordered_of_ne_nil (by simp [hs]), hsegs, hbase,
      hevents, inside, List.isEmpty_eq_false_iff.2 hafter]
    simp
  · obtain ⟨rfl, hclosed⟩ := Classical.not_imp.1 hopen
    obtain ⟨n, hn⟩ := Option.ne_none_iff_exists'.1 hclosed
    have hnil : ((s.decision frame).run s (lex s.mode s.rest)).stack = [] := by
      rw [hstack, Action.levels_of_closed hn]
      rfl
    rw [openSize, openSize, Nat.zero_add] at hp
    have hevents := Action.events_closed hp hl hne hn
    rw [State.ordered_of_nil hnil, State.ordered_of_ne_nil (by simp [hs]),
      Action.segments_run_of_closed hs hl hn, List.reverse_cons, Segment.ordersAll_append,
      Segment.ordersAll_singleton, Segment.orders, ← State.base, hevents, inside, hnil, hs]
    simp [openEvents, openSize]

/-- Between statements, the fillers set aside and a keyword or another token are ordered. -/
theorem ordered_of_enter_atRest (frame : Frame) (hp : s.Placed start) (hs : s.stack = []) :
    (s.atRest.enter frame).ordered start = s.ordered start ++
      ((s.placed.flatMap fun p => [.begin p.1.start, .tell (.filler p), .store]) ++
        [.begin s.pos, .tell (.enter frame.kind frame.field s.pos)]) := by
  have hstack := s.stack_enter_atRest frame hs
  have hbase : (s.atRest.enter frame).base start = s.pos := by
    rw [← base_flush hp hs, State.base, s.segments_enter_atRest, State.base]
  rw [State.ordered_of_ne_nil (by simp [hstack]), hstack, s.segments_enter_atRest, hbase,
    ordersAll_flush hp hs]
  simp [openEvents, openSize]

theorem ordered_start {command : Command} {t : Token} {rest : Text} (hp : s.Placed start)
    (hs : s.stack = []) (hl : lex .normal s.rest = some (t, rest)) (hk : t.kind = .keyword)
    (hc : Command.ofWord? t.text = some command) (hr : resume s.pos = none) :
    (s.start command t rest).ordered start = s.ordered start ++ orders resume s := by
  have hsolid : Solid (lex .normal s.rest) := by simp [Solid, hl, hk, TokenKind.isFiller]
  have hstack := s.stack_start command t rest hs
  have hbase : (s.start command t rest).base start = s.pos := by
    rw [← base_flush hp hs, State.base, State.segments_start, State.base]
  rw [State.ordered_of_ne_nil (by simp [hstack]), hstack, State.segments_start, hbase,
    ordersAll_flush hp hs, orders_of_stack_nil hs hsolid]
  simp [topOrders, hl, hk, hc, hr, openEvents, openSize, Frame.kind, Frame.field]

theorem ordered_stray {t : Token} {rest : Text} (hp : s.Placed start) (hs : s.stack = [])
    (hl : lex .normal s.rest = some (t, rest)) (hf : t.kind.isFiller = false)
    (hk : t.kind ≠ .keyword) :
    (s.atRest.recover t ⟨.normal, false, none⟩).ordered start =
      s.ordered start ++ orders resume s := by
  have hsolid : Solid (lex .normal s.rest) := by simp [Solid, hl, hf]
  rw [State.recover, ordered_of_enter_atRest _ hp hs, orders_of_stack_nil hs hsolid]
  simp [topOrders, hl, hk, Frame.kind, Frame.field]

/-- Every step adds what it orders. -/
theorem ordered_of_step (hw : WellFormed s) (hsound : Sound s) (hp : s.Placed start)
    (h : step resume s = .next s') : s'.ordered start = s.ordered start ++ orders resume s := by
  cases moves_of_step h with
  | settle settled =>
      rw [orders_of_isSettled settled, ordered_close_of_isSettled start hw hsound settled]
  | skip open_ lexed filler =>
      rw [orders_of_filler open_ lexed filler, List.append_nil]
      rfl
  | act open_ stack solid => exact ordered_act hw hsound hp open_ stack solid
  | @start command t rest stack lexed keyword named =>
      have hsolid : Solid (lex .normal s.rest) := by
        simp [Solid, lexed, keyword, TokenKind.isFiller]
      refine ordered_start hp stack lexed keyword named ?_
      rw [step_of_stack_nil stack hsolid, lexed, atTop_keyword keyword named] at h
      split at h
      · cases h
      · assumption
  | stray stack lexed filler keyword => exact ordered_stray hp stack lexed filler keyword

/-- The last step orders what is left. -/
theorem ordered_of_done {segs : List Segment} {resumed : Option Nat} (hp : s.Placed start)
    (h : step resume s = .done segs resumed) :
    Segment.ordersAll start segs = s.ordered start ++ orders resume s := by
  obtain ⟨hs, rfl, hend⟩ := step_eq_done h
  rw [ordersAll_flush hp hs]
  rcases hend with ⟨hr, -⟩ | ⟨t, rest, hl, hk, hr, hsome⟩
  · have hl : lex .normal s.rest = none := lex_eq_none_iff.2 hr
    rw [orders_of_stack_nil hs (by simp [Solid, hl])]
    simp [topOrders, hl]
  · obtain ⟨command, hc⟩ := ofWord?_of_keyword hl hk
    rw [orders_of_stack_nil hs (by simp [Solid, hl, hk, TokenKind.isFiller])]
    simp [topOrders, hl, hk, hc, hr, hsome]

/-- The machine comes from one state to the other. -/
abbrev Reaches (resume : Nat → Option Nat) : State → State → Prop :=
  Relation.ReflTransGen fun s s' => step resume s = .next s'

theorem Ends.ordered_prefix_ordersAll {r : List Segment × Option Nat} (h : Ends resume s r)
    (hw : WellFormed s) (hsound : Sound s) (hp : s.Placed start) :
    s.ordered start <+: Segment.ordersAll start r.1 := by
  induction h with
  | done hd => exact ⟨_, (ordered_of_done hp hd).symm⟩
  | next hn _ ih =>
      have hm := moves_of_step hn
      have hprefix := ih (hw.moves hm) (hsound.moves hw hm) (hm.placed hp)
      rw [ordered_of_step hw hsound hp hn] at hprefix
      exact (List.prefix_append _ _).trans hprefix

/-- What is ordered up to a state of a run is the first part of what is ordered in all. -/
theorem Ends.ordered_prefix_of_reaches {r : List Segment × Option Nat} (h : Ends resume s r)
    (hw : WellFormed s) (hsound : Sound s) (hp : s.Placed start) (hr : Reaches resume s s') :
    s'.ordered start <+: Segment.ordersAll start r.1 := by
  induction hr using Relation.ReflTransGen.head_induction_on with
  | refl => exact h.ordered_prefix_ordersAll hw hsound hp
  | head hstep _ ih =>
      have hm := moves_of_step hstep
      cases h with
      | done hd =>
          rw [hd] at hstep
          cases hstep
      | next hn run =>
          cases hstep.symm.trans hn
          exact ih run (hw.moves hm) (hsound.moves hw hm) (hm.placed hp)

/-- A run orders its segments, one after the other, in front of which is what was ordered before. -/
theorem ordersAll_of_run {fuel : Nat} {r : List Segment × Option Nat} (hw : WellFormed s)
    (hsound : Sound s) (hp : s.Placed start) (h : run resume fuel s = some r) :
    Segment.ordersAll start r.1 = s.ordered start ++ log resume fuel s := by
  induction fuel generalizing s with
  | zero => cases h
  | succ fuel ih =>
      rw [run] at h
      rw [log]
      cases hstep : step resume s with
      | next s' =>
          have hm := moves_of_step hstep
          rw [hstep] at h
          rw [ih (hw.moves hm) (hsound.moves hw hm) (hm.placed hp) h,
            ordered_of_step hw hsound hp hstep, List.append_assoc]
      | done segs resumed =>
          rw [hstep] at h
          obtain rfl := Option.some.inj h
          rw [List.append_nil, ordered_of_done hp hstep]

end Steps

end Machine

namespace Tree

/-- What is ordered from builders in the course of a parse. -/
def orders (t : Text) : List Order :=
  Machine.log (fun _ => none) (Machine.enough t.size) (.init 0 t)

/-- The orders of a parse are those for its segments, each in its place. -/
theorem orders_eq_ordersAll (t : Text) : orders t = Segment.ordersAll 0 (parse t).segments :=
  (Machine.ordersAll_of_run (Machine.wellFormed_init 0 t) (Machine.sound_init 0 t)
    (Machine.placed_init 0 t) (Machine.run_enough _ 0 t)).symm

example : orders "READ ".toList = [.begin 0, .tell (.enter (.statement .read) none 0),
    .tell (.token .keyword none ⟨0, 4⟩), .tell (.close none), .store, .begin 4,
    .tell (.token .whitespace none ⟨4, 5⟩), .store] := by
  decide +kernel

theorem ordered_prefix_orders {t : Text} {s : Machine.State}
    (h : Machine.Reaches (fun _ => none) (.init 0 t) s) : s.ordered 0 <+: orders t := by
  rw [orders_eq_ordersAll]
  exact (ends_parse t).ordered_prefix_of_reaches (Machine.wellFormed_init 0 t)
    (Machine.sound_init 0 t) (Machine.placed_init 0 t) h

end Tree

end BibStyle
