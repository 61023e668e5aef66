import BibStyle.Proofs.Orders
import BibStyle.Proofs.Table
import Mathlib.Algebra.Order.Ring.Nat
import Mathlib.Data.List.Induction

/-!
# Tables built to order

While a builder is at work on a segment, the indices on its stack are those of the nodes that are
open (`Table.Opens`).

What comes of the orders of a parse depends only on how a single builder works (`Maker`). Each
segment is what a new one makes of the events of its node (`Maker.run_ordersAll`). The builder at
hand is at any moment what comes of all that it has heard (`Maker.current_run`), and that is the
first part of the events of some segment (`Maker.exists_prefix_events`).
-/

namespace BibStyle

open Node

namespace Event

/-- The number of nodes that the event adds. -/
def nodes : Event → Nat
  | .enter .. | .token .. | .mark _ => 1
  | .close _ => 0

/-- The kinds and the fields of the open nodes, innermost first, after an event. -/
def opens (ks : List (NodeKind × Option Field)) : Event → List (NodeKind × Option Field)
  | .enter k f _ => (k, f) :: ks
  | .token .. | .mark _ => ks
  | .close _ => ks.tail

end Event

namespace Node

mutual

theorem sum_nodes_events (pos : Nat) : (n : Node) →
    ((n.events pos).map Event.nodes).sum = n.count
  | .leaf k f t => by simp [events, count, Event.nodes]
  | .branch k f e cs => by
      rcases events_branch_cases pos k f e cs with ⟨fault, hm⟩ | hevents
      · rw [hm, events_marker]
        simp [marker, count, Event.nodes]
      · simp [hevents, count, Event.nodes, sum_nodes_eventsAll pos cs]

theorem sum_nodes_eventsAll (pos : Nat) : (ns : List Node) →
    ((eventsAll pos ns).map Event.nodes).sum = countAll ns
  | [] => by simp
  | n :: ns => by simp [sum_nodes_events pos n, sum_nodes_eventsAll (pos + n.size) ns]

end

mutual

/-- The events of a node leave open what was open. -/
theorem foldl_opens_events (pos : Nat) : (n : Node) → (ks : List (NodeKind × Option Field)) →
    (n.events pos).foldl Event.opens ks = ks
  | .leaf k f t, ks => by simp [events, Event.opens]
  | .branch k f e cs, ks => by
      rcases events_branch_cases pos k f e cs with ⟨fault, hm⟩ | hevents
      · simp [hm, Event.opens]
      · simp [hevents, Event.opens, foldl_opens_eventsAll pos cs]

theorem foldl_opens_eventsAll (pos : Nat) : (ns : List Node) →
    (ks : List (NodeKind × Option Field)) → (eventsAll pos ns).foldl Event.opens ks = ks
  | [], ks => by simp
  | n :: ns, ks => by
      simp [foldl_opens_events pos n, foldl_opens_eventsAll (pos + n.size) ns]

end

end Node

theorem Machine.foldl_opens_openEvents (pos : Nat) (stack : List Level) :
    (openEvents pos stack).foldl Event.opens [] =
      stack.map fun level => (level.frame.kind, level.frame.field) := by
  induction stack with
  | nil => rfl
  | cons level below ih =>
      simp [openEvents, ih, Event.opens, foldl_opens_eventsAll]

/-! ## The stack of open nodes -/

namespace Table

/-- The entries of the one table are still in the other, each with the same kind, the same field and
the same parent. -/
def Keeps (a a' : Table) : Prop := ∀ (i : Nat) (e : Entry), a[i]? = some e →
  ∃ e', a'[i]? = some e' ∧ e'.kind = e.kind ∧ e'.field = e.field ∧ e'.parent = e.parent

theorem Keeps.trans {a b c : Table} (h : a.Keeps b) (h' : b.Keeps c) : a.Keeps c := by
  intro i e he
  obtain ⟨e', he', hkind, hfield, hparent⟩ := h i e he
  obtain ⟨e'', he'', hkind', hfield', hparent'⟩ := h' i e' he'
  exact ⟨e'', he'', hkind'.trans hkind, hfield'.trans hfield, hparent'.trans hparent⟩

theorem keeps_append (a b : Table) : a.Keeps (a ++ b) := by
  intro i e he
  refine ⟨e, ?_, rfl, rfl, rfl⟩
  rw [List.getElem?_append_left (List.getElem?_eq_some_iff.1 he).1, he]

theorem keeps_modify (a : Table) (i : Nat) {f : Entry → Entry}
    (hf : ∀ e, (f e).kind = e.kind ∧ (f e).field = e.field ∧ (f e).parent = e.parent) :
    a.Keeps (a.modify i f) := by
  intro j e he
  refine ⟨if i = j then f e else e, by simp [List.getElem?_modify, he], ?_⟩
  split
  · exact hf e
  · exact ⟨rfl, rfl, rfl⟩

/-- The indices are those of nodes with the given kinds and fields, each inside the next. -/
inductive Opens (a : Table) : List Nat → List (NodeKind × Option Field) → Prop where
  | nil : Opens a [] []
  | cons {i above e k f ks} (here : a[i]? = some e) (kind : e.kind = .node k) (field : e.field = f)
      (parent : e.parent = above.head?) (rest : Opens a above ks) :
      Opens a (i :: above) ((k, f) :: ks)

theorem Opens.mono {a a' : Table} {is : List Nat} {ks : List (NodeKind × Option Field)}
    (h : a.Opens is ks) (hk : a.Keeps a') : a'.Opens is ks := by
  induction h with
  | nil => exact .nil
  | cons here kind field parent _ ih =>
      obtain ⟨e', here', hkind, hfield, hparent⟩ := hk _ _ here
      exact .cons here' (hkind.trans kind) (hfield.trans field) (hparent.trans parent) ih

end Table

namespace Builder

theorem keeps_modifyAt (a : Table) (p : Option Nat) (is : List Nat) (flawed : Bool) :
    a.Keeps (Cell.modifyAt a p (.gain is flawed)) := by
  cases p with
  | none => simpa [Cell.modifyAt] using Table.keeps_append a []
  | some i => exact Table.keeps_modify a i fun _ => ⟨rfl, rfl, rfl⟩

theorem keeps_add (b : Builder Nat) (e : Entry) : b.table.Keeps (b.add e).table :=
  (keeps_modifyAt b.table _ _ _).trans (Table.keeps_append _ _)

/-- After every event, the indices on the stack are those of the nodes that are open. -/
theorem opens_hear {b : Builder Nat} {ks : List (NodeKind × Option Field)}
    (h : b.table.Opens b.opened ks) (e : Event) :
    (b.hear e).table.Opens (b.hear e).opened (e.opens ks) := by
  cases e with
  | token k f span => exact h.mono (b.keeps_add _)
  | mark fault => exact h.mono (b.keeps_add _)
  | enter k f start =>
      have hlast : (b.enter k f start).table[b.cells.length]? = some
          ⟨.node k, f, ⟨start - b.base, start - b.base⟩, none, false, b.opened.head?, []⟩ := by
        simp [table, enter, add]
      exact .cons hlast rfl rfl rfl (h.mono (b.keeps_add _))
  | close fault =>
      obtain ⟨base, cells, opened, stop⟩ := b
      cases h with
      | nil => exact .nil
      | @cons i above e k f ks here kind field parent rest =>
          have hclosed : Table.Keeps cells (cells.modify i (.finish stop fault)) :=
            Table.keeps_modify cells i fun _ => ⟨rfl, rfl, rfl⟩
          exact rest.mono (hclosed.trans (keeps_modifyAt _ _ _ _))

theorem opens_foldl {b : Builder Nat} {ks : List (NodeKind × Option Field)}
    (h : b.table.Opens b.opened ks) (es : List Event) :
    (es.foldl hear b).table.Opens (es.foldl hear b).opened (es.foldl Event.opens ks) := by
  induction es generalizing b ks with
  | nil => exact h
  | cons e es ih => exact ih (opens_hear h e)

end Builder

/-! ## What comes of orders -/

/-- How a builder works. -/
structure Maker (β : Type) where
  /-- A builder for a segment that starts at the byte. -/
  new : Nat → β
  hear : β → Event → β
  finish : β → β

/-- The builder at hand, if any, and what has been built and stored. -/
structure Bench (β : Type) where
  current : Option β
  stored : List β

def Bench.map {β γ : Type} (f : β → γ) (w : Bench β) : Bench γ :=
  ⟨w.current.map f, w.stored.map f⟩

namespace Maker

variable {β : Type} (m : Maker β)

def follow (w : Bench β) : Order → Bench β
  | .begin base => { w with current := some (m.new base) }
  | .tell e => { w with current := w.current.map (m.hear · e) }
  | .store => ⟨none, w.stored ++ (w.current.map m.finish).toList⟩

def run (os : List Order) : Bench β := os.foldl m.follow ⟨none, []⟩

/-- What is made of a segment at byte `pos`. -/
def make (pos : Nat) (g : Segment) : β := m.finish ((g.node.events pos).foldl m.hear (m.new pos))

/-- What is made of segments that follow one another from byte `pos` on. -/
def makeAll (pos : Nat) (segs : List Segment) : List β :=
  List.zipWith m.make (Tree.offsetsFrom pos segs) segs

theorem run_append (os os' : List Order) : m.run (os ++ os') = os'.foldl m.follow (m.run os) := by
  rw [run, List.foldl_append, run]

theorem foldl_tell (es : List Event) (b : β) (bs : List β) :
    (es.map Order.tell).foldl m.follow ⟨some b, bs⟩ = ⟨some (es.foldl m.hear b), bs⟩ := by
  induction es generalizing b with
  | nil => rfl
  | cons e es ih => exact ih (m.hear b e)

theorem foldl_orders (pos : Nat) (g : Segment) (w : Bench β) :
    (g.orders pos).foldl m.follow w = ⟨none, w.stored ++ [m.make pos g]⟩ := by
  rw [Segment.orders, List.foldl_cons, List.foldl_append]
  exact congrArg (m.follow · .store) (m.foldl_tell (g.node.events pos) (m.new pos) w.stored)

/-- Each segment that is ordered is made and stored. -/
theorem foldl_ordersAll (pos : Nat) (segs : List Segment) (bs : List β) :
    (Segment.ordersAll pos segs).foldl m.follow ⟨none, bs⟩ = ⟨none, bs ++ m.makeAll pos segs⟩ := by
  induction segs generalizing pos bs with
  | nil => simp [Segment.ordersAll, makeAll]
  | cons g segs ih =>
      rw [Segment.ordersAll, List.foldl_append, foldl_orders, ih]
      simp [makeAll]

theorem run_ordersAll (pos : Nat) (segs : List Segment) :
    m.run (Segment.ordersAll pos segs) = ⟨none, m.makeAll pos segs⟩ :=
  m.foldl_ordersAll pos segs []

theorem forall₂_makeAll {R : β → Segment → Prop} {segs : List Segment}
    (h : ∀ pos, ∀ g ∈ segs, R (m.make pos g) g) (pos : Nat) :
    List.Forall₂ R (m.makeAll pos segs) segs := by
  induction segs generalizing pos with
  | nil => exact .nil
  | cons g segs ih =>
      exact .cons (h pos g List.mem_cons_self)
        (ih (fun pos g hg => h pos g (List.mem_cons_of_mem _ hg)) _)

/-- Only notes what it hears. -/
def recorder : Maker (Nat × List Event) :=
  ⟨fun base => (base, []), fun r e => (r.1, r.2 ++ [e]), id⟩

/-- Where the segment at hand starts, and what its builder has heard. -/
def told (os : List Order) : Option (Nat × List Event) := (recorder.run os).current

/-- The builder at hand is what comes of all that it has heard. -/
theorem current_run (os : List Order) :
    (m.run os).current = (told os).map fun r => r.2.foldl m.hear (m.new r.1) := by
  rw [told]
  induction os using List.reverseRecOn with
  | nil => rfl
  | append_singleton os o ih =>
      rw [run_append, run_append, List.foldl_cons, List.foldl_cons, List.foldl_nil, List.foldl_nil]
      cases o with
      | begin base => rfl
      | tell e =>
          simp only [follow, ih]
          cases (recorder.run os).current <;> simp [recorder]
      | store => rfl

theorem foldl_hear_recorder (r : Nat × List Event) (es : List Event) :
    es.foldl recorder.hear r = (r.1, r.2 ++ es) := by
  induction es generalizing r with
  | nil => simp
  | cons e es ih => rw [List.foldl_cons, ih]; simp [recorder]

theorem prefix_events_of_orders {pos : Nat} {g : Segment} {w : Bench (Nat × List Event)}
    {before : List Order} {r : Nat × List Event} (h : before <+: g.orders pos)
    (hw : w.current = none) (hr : r ∈ (before.foldl recorder.follow w).current) :
    r.2 <+: g.node.events r.1 := by
  rcases List.prefix_cons_iff.1 h with rfl | ⟨tells, rfl, htells⟩
  · rw [List.foldl_nil, hw] at hr
    cases hr
  · rcases List.prefix_concat_iff.1 htells with rfl | htells
    · rw [← Segment.orders, foldl_orders] at hr
      cases hr
    · obtain ⟨es, hes, rfl⟩ := List.prefix_map_iff.1 htells
      rw [List.foldl_cons, follow, foldl_tell, foldl_hear_recorder] at hr
      obtain rfl : (pos, es) = r := Option.some.inj hr
      exact hes

/-- At any moment, the builder at hand has heard the first events of a segment. -/
theorem exists_prefix_events {pos : Nat} {segs : List Segment} {before : List Order}
    {r : Nat × List Event} (h : before <+: Segment.ordersAll pos segs) (hr : r ∈ told before) :
    ∃ g ∈ segs, r.2 <+: g.node.events r.1 := by
  induction segs using List.reverseRecOn generalizing before with
  | nil =>
      obtain rfl := List.prefix_nil.1 h
      cases hr
  | append_singleton segs g ih =>
      obtain ⟨after, h⟩ := h
      rw [Segment.ordersAll_append, Segment.ordersAll_singleton] at h
      rcases List.append_eq_append_iff.1 h with ⟨more, hsegs, -⟩ | ⟨begun, rfl, hg⟩
      · obtain ⟨g', hg', hprefix⟩ := ih ⟨more, hsegs.symm⟩ hr
        exact ⟨g', List.mem_append_left _ hg', hprefix⟩
      · rw [told, run_append, run_ordersAll] at hr
        exact ⟨g, by simp, prefix_events_of_orders ⟨after, hg.symm⟩ rfl hr⟩

/-- In a state of the machine, the builder at hand has heard of all that is open. -/
theorem told_ordered (start : Nat) (s : Machine.State) : told (s.ordered start) =
    if s.stack.isEmpty then none
    else some (s.base start, Machine.openEvents (s.base start) s.stack) := by
  cases hs : s.stack with
  | nil =>
      rw [Machine.State.ordered_of_nil hs, told, run_ordersAll]
      rfl
  | cons level below =>
      rw [Machine.State.ordered_of_ne_nil (by simp [hs]), told, run_append, run_ordersAll,
        List.foldl_cons, follow, foldl_tell, foldl_hear_recorder, hs]
      rfl

end Maker

/-! ## Two makers -/

/-- Keeps the kinds and the fields of the nodes that are open. -/
def openings : Maker (List (NodeKind × Option Field)) := ⟨fun _ => [], Event.opens, id⟩

/-- Between two steps, the nodes that are open are those on the stack of the machine. -/
theorem current_openings (start : Nat) (s : Machine.State) :
    (openings.run (s.ordered start)).current =
      if s.stack.isEmpty then none
      else some (s.stack.map fun level => (level.frame.kind, level.frame.field)) := by
  rw [Maker.current_run, Maker.told_ordered, ← Machine.foldl_opens_openEvents (s.base start)]
  split <;> rfl

/-- Makes a segment into its nodes, with indices of the type. -/
def Builder.maker (ι : Type) [Index ι] : Maker (Builder ι) := ⟨.new, .hear, .finish⟩

theorem Builder.make_maker (pos : Nat) (g : Segment) :
    (Builder.maker Nat).make pos g = ⟨pos, g.table, [], g.size⟩ := by
  rw [Maker.make, maker, g.foldl_events]
  rfl

end BibStyle
