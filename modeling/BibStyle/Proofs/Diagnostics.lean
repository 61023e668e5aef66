import BibStyle.Proofs.Layout

/-!
# Every fault is reported

The faults of a tree are collected without a look into nodes that are not flawed, so a flaw that
were not handed on to the nodes around it would hide the faults below. What is collected is compared
with a walk over all nodes (`Node.filterMap_diagnostic?_preorder`), and in it the faults come by the
places where their nodes start (`Node.pairwise_faultsAt`).

The tables of the segments carry the flaws that were handed on while they were built. A loop over a
stack of nodes that goes by them alone reports the same faults (`Node.Part.reports`).
-/

namespace BibStyle

/-! ## Reporting by the tables -/

/-- The node numbered `index` of a segment that starts at byte `off`. -/
structure Spot where
  off : Nat
  table : Table
  index : Nat

/-- The fault of the node, in a segment that starts at byte `off`. -/
def Entry.diagnostic? (off : Nat) (e : Entry) : Option Diagnostic :=
  e.fault.map (⟨e.span.shift off, ·⟩)

namespace Spot

def flawed (s : Spot) : Bool := s.table[s.index]?.any (·.flawed)

/-- The flawed ones among the children of the node, which has the entry `e`. -/
def flawedChildren (s : Spot) (e : Entry) : List Spot :=
  (e.children.map fun i => { s with index := i }).filter flawed

end Spot

/-- The node with the number `i` in the table of a tree that is placed at byte `off`. -/
def Node.spot (root : Node) (off i : Nat) : Spot := ⟨off, root.entries none 0 0, i⟩

/-- What is reported when the nodes on the stack are worked off: a node is replaced by its flawed
children. -/
inductive Reports : List Spot → List Diagnostic → Prop where
  | nil : Reports [] []
  | cons {s e stack ds} (here : s.table[s.index]? = some e)
      (rest : Reports (s.flawedChildren e ++ stack) ds) :
      Reports (s :: stack) ((e.diagnostic? s.off).toList ++ ds)

namespace Node

/-! ## Faults in preorder -/

theorem faultsAt_eq (pos : Nat) (n : Node) :
    n.faultsAt pos = (n.fault.map (⟨⟨pos, pos + n.size⟩, ·⟩)).toList ++
      faultsAllAt pos n.children := by
  cases n <;> simp [faultsAt, faultsAllAt, fault, children]

theorem diagnostic?_locate (pos : Nat) (n : Node) :
    (n.locate pos).diagnostic? = n.fault.map (⟨⟨pos, pos + n.size⟩, ·⟩) := by
  rw [Located.diagnostic?, Located.fault, node_locate, span_locate]

theorem filterMap_cons_eq {α β : Type} (f : α → Option β) (x : α) (xs : List α) :
    (x :: xs).filterMap f = (f x).toList ++ xs.filterMap f := by
  rw [List.filterMap_cons]
  cases f x <;> rfl

mutual

/-- The faults of a node are those of the nodes that a walk over all of it comes to. -/
theorem filterMap_diagnostic?_preorder (pos : Nat) : (n : Node) →
    (n.locate pos).preorder.filterMap Located.diagnostic? = n.faultsAt pos
  | .leaf k f t => by
      rw [preorder_locate_leaf, filterMap_cons_eq, diagnostic?_locate, faultsAt_eq]
      simp [children, faultsAllAt]
  | .branch k f e cs => by
      rw [preorder_locate_branch, filterMap_cons_eq, diagnostic?_locate,
        filterMap_diagnostic?_preorderAll pos cs, faultsAt_eq]
      rfl

theorem filterMap_diagnostic?_preorderAll (pos : Nat) : (ns : List Node) →
    (Located.preorderAll (locateAll pos ns) []).filterMap Located.diagnostic? = faultsAllAt pos ns
  | [] => by simp [locateAll, Located.preorderAll, faultsAllAt]
  | n :: ns => by
      rw [preorderAll_locateAll_cons, List.filterMap_append, filterMap_diagnostic?_preorder pos n,
        filterMap_diagnostic?_preorderAll (pos + n.size) ns, faultsAllAt]

end

mutual

/-- Faults start in the node that has them. -/
theorem start_of_mem_faultsAt (pos : Nat) : (n : Node) → ∀ d ∈ n.faultsAt pos,
    pos ≤ d.span.start ∧ d.span.start ≤ pos + n.size
  | .leaf k f t, d, hd => by
      cases hk : Fault.ofToken? k with
      | none => simp [faultsAt, hk] at hd
      | some e =>
          simp only [faultsAt, hk, Option.map_some, Option.toList_some, List.mem_singleton] at hd
          subst hd
          exact ⟨Nat.le_refl _, Nat.le_add_right _ _⟩
  | .branch k f e cs, d, hd => by
      rw [faultsAt_eq] at hd
      rcases List.mem_append.1 hd with hd | hd
      · obtain ⟨fault, -, rfl⟩ := Option.map_eq_some_iff.1 (Option.mem_toList.1 hd)
        exact ⟨Nat.le_refl _, Nat.le_add_right _ _⟩
      · rw [size_branch]
        exact start_of_mem_faultsAllAt pos cs d hd

theorem start_of_mem_faultsAllAt (pos : Nat) : (ns : List Node) → ∀ d ∈ faultsAllAt pos ns,
    pos ≤ d.span.start ∧ d.span.start ≤ pos + sizeAll ns
  | [], d, hd => by simp [faultsAllAt] at hd
  | n :: ns, d, hd => by
      rw [faultsAllAt] at hd
      rw [sizeAll_cons]
      rcases List.mem_append.1 hd with hd | hd
      · have := start_of_mem_faultsAt pos n d hd
        omega
      · have := start_of_mem_faultsAllAt (pos + n.size) ns d hd
        omega

end

mutual

/-- The faults of a node come by the places where they start. -/
theorem pairwise_faultsAt (pos : Nat) : (n : Node) →
    (n.faultsAt pos).Pairwise (·.span.start ≤ ·.span.start)
  | .leaf k f t => by
      cases hk : Fault.ofToken? k <;> simp [faultsAt, hk]
  | .branch k f e cs => by
      have hcs := pairwise_faultsAllAt pos cs
      cases e with
      | none => simpa [faultsAt] using hcs
      | some fault =>
          rw [faultsAt_eq]
          exact .cons (fun d hd => (start_of_mem_faultsAllAt pos cs d hd).1) hcs

theorem pairwise_faultsAllAt (pos : Nat) : (ns : List Node) →
    (faultsAllAt pos ns).Pairwise (·.span.start ≤ ·.span.start)
  | [] => by simp [faultsAllAt]
  | n :: ns => by
      rw [faultsAllAt]
      refine List.pairwise_append.2
        ⟨pairwise_faultsAt pos n, pairwise_faultsAllAt (pos + n.size) ns, ?_⟩
      intro d hd d' hd'
      exact Nat.le_trans (start_of_mem_faultsAt pos n d hd).2
        (start_of_mem_faultsAllAt (pos + n.size) ns d' hd').1

end

/-! ## Flaws -/

/-- A node is flawed if a walk over all of it comes to a fault. -/
theorem flawed_iff_exists_preorder (pos : Nat) (n : Node) :
    n.flawed = true ↔ ∃ l ∈ (n.locate pos).preorder, l.fault.isSome = true := by
  rw [← Bool.not_eq_false, ← faultsAt_eq_nil_iff pos, ← filterMap_diagnostic?_preorder,
    List.filterMap_eq_nil_iff]
  simp [Located.diagnostic?, Option.isSome_iff_ne_none]

mutual

theorem exists_locate_of_mem_preorder (pos : Nat) : (n : Node) → ∀ l ∈ (n.locate pos).preorder,
    ∃ m off, l = Node.locate off m
  | .leaf k f t, l, hl => by
      rw [preorder_locate_leaf, List.mem_singleton] at hl
      exact ⟨_, _, hl⟩
  | .branch k f e cs, l, hl => by
      rw [preorder_locate_branch] at hl
      rcases List.mem_cons.1 hl with hl | hl
      · exact ⟨_, _, hl⟩
      · exact exists_locate_of_mem_preorderAll pos cs l hl

theorem exists_locate_of_mem_preorderAll (pos : Nat) : (ns : List Node) →
    ∀ l ∈ Located.preorderAll (locateAll pos ns) [], ∃ m off, l = Node.locate off m
  | [], l, hl => by simp [locateAll, Located.preorderAll] at hl
  | n :: ns, l, hl => by
      rw [preorderAll_locateAll_cons] at hl
      rcases List.mem_append.1 hl with hl | hl
      · exact exists_locate_of_mem_preorder pos n l hl
      · exact exists_locate_of_mem_preorderAll (pos + n.size) ns l hl

end

mutual

/-- A node is flawed if one of its entries has a fault. -/
theorem flawed_iff_exists_entries (parent : Option Nat) (i pos : Nat) : (n : Node) →
    (n.flawed = true ↔ ∃ c ∈ n.entries parent i pos, c.fault.isSome = true)
  | .leaf k f t => by simp [flawed, entries, entry, fault]
  | .branch k f e cs => by
      have hcs := flawed_iff_exists_entriesAll i (i + 1) pos cs
      rw [flawed, Bool.or_eq_true, hcs, entries]
      simp only [List.mem_cons, exists_eq_or_imp]
      rfl

theorem flawed_iff_exists_entriesAll (p i pos : Nat) : (ns : List Node) →
    (flawedAll ns = true ↔ ∃ c ∈ entriesAll p i pos ns, c.fault.isSome = true)
  | [] => by simp [flawedAll]
  | n :: ns => by
      rw [flawedAll, Bool.or_eq_true, flawed_iff_exists_entries (some p) i pos n,
        flawed_iff_exists_entriesAll p (i + n.count) (pos + n.size) ns, entriesAll_cons]
      simp only [List.mem_append, or_and_right, exists_or]

end

namespace Part

variable {root : Node} {off : Nat} {above : List Located}

/-- The flaw that the table has for a node says whether a walk on from the node comes to a fault. -/
theorem marked {n : Node} {s : Site} (h : Part root off above n s) :
    ∃ order, Table.Walk (root.entries none 0 0) [s.index] order ∧
      (n.flawed = true ↔
        ∃ c ∈ order.filterMap ((root.entries none 0 0)[·]?), c.fault.isSome = true) := by
  have hwalk := walk n h .nil
  have hentries := filterMap_getElem?_of_prefix h.entries_prefix
  rw [length_entries] at hentries
  rw [List.append_nil] at hwalk
  refine ⟨_, hwalk, ?_⟩
  rw [hentries]
  exact flawed_iff_exists_entries _ _ _ n

theorem diagnostic?_entry (parent : Option Nat) (i pos : Nat) (n : Node) :
    (n.entry parent i pos).diagnostic? off =
      n.fault.map (⟨⟨off + pos, off + pos + n.size⟩, ·⟩) := by
  rw [Entry.diagnostic?, entry, Span.shift, Nat.add_assoc]

theorem flawed_spot {n : Node} {s : Site} (h : Part root off above n s) :
    (root.spot off s.index).flawed = n.flawed := by
  unfold Spot.flawed spot
  rw [h.getElem?_entries]
  rfl

mutual

/-- Working off a node reports the faults in it. -/
theorem reports : (n : Node) → {s : Site} → Part root off above n s → {stack : List Spot} →
    {ds : List Diagnostic} → Reports stack ds →
    Reports (root.spot off s.index :: stack) (n.faultsAt (off + s.pos) ++ ds)
  | .leaf k f t, s, h, stack, ds, hr => by
      rw [faultsAt_eq, List.append_assoc, ← diagnostic?_entry s.parent s.index s.pos]
      exact .cons h.getElem?_entries hr
  | .branch k f e cs, s, h, stack, ds, hr => by
      rw [faultsAt_eq, List.append_assoc, ← diagnostic?_entry s.parent s.index s.pos]
      exact .cons h.getElem?_entries (reportsAll cs [] h rfl hr)

/-- Working off the flawed ones among children reports the faults in all of them. -/
theorem reportsAll : (after : List Node) → {n : Node} → {s : Site} → (before : List Node) →
    Part root off above n s → n.children = before ++ after → {stack : List Spot} →
    {ds : List Diagnostic} → Reports stack ds →
    Reports (((indices (s.index + 1 + countAll before) after).map
        (root.spot off)).filter Spot.flawed ++ stack)
      (faultsAllAt (off + s.pos + sizeAll before) after ++ ds)
  | [], _, _, _, _, _, _, _, hr => by simpa [faultsAllAt] using hr
  | m :: after, n, s, before, h, hc, stack, ds, hr => by
      have hm := h.child hc
      have hrest := reportsAll after (before ++ [m]) h (by simpa using hc) hr
      rw [countAll_concat, sizeAll_concat, ← Nat.add_assoc, ← Nat.add_assoc] at hrest
      have hspot : (root.spot off (s.index + 1 + countAll before)).flawed = m.flawed :=
        hm.flawed_spot
      rw [indices_cons, List.map_cons, faultsAllAt, List.append_assoc]
      cases hf : m.flawed with
      | true =>
          rw [List.filter_cons_of_pos (hspot.trans hf), Nat.add_assoc off]
          rw [Nat.add_assoc off] at hrest
          exact reports m hm hrest
      | false =>
          rw [List.filter_cons_of_neg (ne_true_of_eq_false (hspot.trans hf)),
            (faultsAt_eq_nil_iff _ m).2 hf]
          exact hrest

end

end Part

end Node

namespace Tree

/-! ## The faults of a tree -/

/-- The nodes of the segments themselves. -/
def spots (t : Tree) : List Spot :=
  List.zipWith (fun g off => ⟨off, g.table, 0⟩) t.segments t.offsets

/-- The faults of the tree are reported in full and in order. -/
structure Diagnosed (t : Tree) : Prop where
  /-- Each node that has a fault is reported once and where it stands, parents before children. -/
  complete : t.faults = t.root.preorder.filterMap Located.diagnostic?
  ordered : t.faults.Pairwise (·.span.start ≤ ·.span.start)
  /-- The flawed nodes are those that have a fault or stand above one that has. -/
  flawed : ∀ l ∈ t.root.preorder,
    (l.flawed = true ↔ ∃ m ∈ l.preorder, m.fault.isSome = true)
  clean : t.faults = [] ↔ t.hasFaults = false
  /-- So are the nodes that a table marks as flawed. -/
  marked : ∀ g ∈ t.segments, ∀ (i : Nat) (e : Entry), g.table[i]? = some e →
    ∃ order, g.table.Walk [i] order ∧
      (e.flawed = true ↔ ∃ c ∈ order.filterMap (g.table[·]?), c.fault.isSome = true)
  /-- Going by these marks alone leads to the same faults. -/
  reported : Reports (t.spots.filter Spot.flawed) t.faults

theorem reports_segments (pos : Nat) (segs : List Segment) :
    Reports ((List.zipWith (fun g off => ⟨off, g.table, 0⟩) segs
      (offsetsFrom pos segs)).filter Spot.flawed) (Node.faultsAllAt pos (segs.map (·.node))) := by
  induction segs generalizing pos with
  | nil => exact .nil
  | cons g segs ih =>
      have hroot : Node.Part g.node pos [] g.node ⟨none, 0, 0, []⟩ := .root
      have hspot : (g.node.spot pos 0).flawed = g.node.flawed := hroot.flawed_spot
      have hrest := ih (pos + g.size)
      rw [offsetsFrom_cons, List.zipWith_cons_cons, List.map_cons, Node.faultsAllAt,
        Segment.table_eq, ← Node.spot]
      cases hf : g.node.flawed with
      | true =>
          rw [List.filter_cons_of_pos (hspot.trans hf)]
          exact Node.Part.reports g.node hroot hrest
      | false =>
          rw [List.filter_cons_of_neg (ne_true_of_eq_false (hspot.trans hf)),
            (Node.faultsAt_eq_nil_iff _ _).2 hf]
          exact hrest

theorem diagnosed (t : Tree) : t.Diagnosed where
  complete := by
    rw [faults, root, Node.filterMap_diagnostic?_preorder, Located.faults, Node.faultsOnto_locate,
      List.append_nil]
  ordered := by
    rw [faults_eq]
    exact Node.pairwise_faultsAllAt 0 _
  flawed := by
    intro l hl
    obtain ⟨n, off, rfl⟩ := Node.exists_locate_of_mem_preorder 0 _ l hl
    rw [Node.flawed_locate]
    exact Node.flawed_iff_exists_preorder off n
  clean := by
    rw [faults_eq, Node.faultsAllAt_eq_nil_iff, hasFaults, root, Node.flawed_locate, Node.flawed]
    rfl
  marked := by
    intro g _ i e he
    rw [Segment.table_eq] at he ⊢
    obtain ⟨n, s, hn, rfl, rfl⟩ := Node.Part.exists_of_getElem? 0 [] he
    exact hn.marked
  reported := by
    rw [faults_eq]
    exact reports_segments 0 t.segments

/-- Whatever the text, its parse reports all its faults, in order, and marks the nodes above
them. -/
theorem diagnosed_parse (s : Text) : (parse s).Diagnosed := diagnosed (parse s)

end Tree

end BibStyle
